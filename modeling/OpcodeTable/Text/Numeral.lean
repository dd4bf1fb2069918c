namespace OpcodeTable.Text

def digit? (radix : Nat) (c : Char) : Option Nat :=
  let d :=
    if '0' ≤ c ∧ c ≤ '9' then some (c.toNat - '0'.toNat)
    else if 'a' ≤ c ∧ c ≤ 'z' then some (c.toNat - 'a'.toNat + 10)
    else if 'A' ≤ c ∧ c ≤ 'Z' then some (c.toNat - 'A'.toNat + 10)
    else none
  d.filter fun d => decide (d < radix)

def ofDigits? (radix : Nat) (acc : Nat) : List Char → Option Nat
  | [] => some acc
  | c :: cs => (digit? radix c).bind fun d => ofDigits? radix (acc * radix + d) cs

def natural? (radix : Nat) : List Char → Option Nat
  | [] => none
  | c :: cs => ofDigits? radix 0 (c :: cs)

def signed? (radix : Nat) : List Char → Option Nat
  | '+' :: cs => natural? radix cs
  | cs => natural? radix cs

/-- A value of whatever size. The mark `0x`, `0b` or `0o` selects the radix; a decimal that starts
with zero could be meant as octal and is refused, unless it is zero. -/
def unbounded? : List Char → Option Nat
  | '0' :: 'x' :: cs | '0' :: 'X' :: cs => signed? 16 cs
  | '0' :: 'b' :: cs | '0' :: 'B' :: cs => signed? 2 cs
  | '0' :: 'o' :: cs | '0' :: 'O' :: cs => signed? 8 cs
  | '0' :: cs => if cs.all (· == '0') then some 0 else none
  | cs => signed? 10 cs

def valueBound : Nat := 1 <<< 64

def value? (text : String) : Option Nat :=
  (unbounded? (text.toList.filter (· ≠ '_'))).filter fun v => decide (v < valueBound)

/-- Positions from here on are not told apart; all of them lie outside the word. -/
def farPosition : Nat := (1 <<< 32) - 1

def position? (cs : List Char) : Option Nat :=
  (natural? 10 cs).map (min farPosition)

end OpcodeTable.Text
