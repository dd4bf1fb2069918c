import OpcodeTable.Command.Directory
import OpcodeTable.Command.Run
import OpcodeTable.Proofs.Draft.Edits
import OpcodeTable.Proofs.Text.Plain

namespace OpcodeTable

/-- The mode is what the given reader makes of one of the arguments. The system says in running text
why a source cannot be read. The name of a level asks for the events of its weight and above. -/
structure Host.Documented (h : Host) : Prop where
  mode_of_parse : ∀ readMode args o, h.parse readMode args = .ok o →
    ∃ text ∈ args, readMode text = .ok o.mode
  plain_reason : ∀ source reason, h.contents source = .error reason → Text.Plain reason
  filter?_name : ∀ l : Level, ∃ f, h.filter? l.name = some f ∧
    ∀ e, f e = true ↔ e.level.rank ≤ l.rank
  filter_name : ∀ (l : Level) e, h.filter l.name e = true ↔ e.level.rank ≤ l.rank

namespace Host.Documented

variable {h : Host} (hdoc : h.Documented)

include hdoc

theorem filterFor_name (l : Level) : h.filterFor (some l.name) = l.admits := by
  obtain ⟨f, hf, hiff⟩ := hdoc.filter?_name l
  funext e
  rw [filterFor, Option.bind_some, hf, Option.getD_some, Bool.eq_iff_iff, hiff, Level.admits,
    decide_eq_true_iff]

theorem filterFor_none : h.filterFor none = Level.warn.admits := by
  funext e
  rw [filterFor, Option.bind_none, Option.getD_none, Bool.eq_iff_iff, hdoc.filter_name,
    Level.admits, decide_eq_true_iff]

end Host.Documented

namespace Arguments

variable {readMode : String → Except String Mode} {args : List String}

namespace Values

def ReadFrom (readMode : String → Except String Mode) (args : List String) : Values → Prop
  | empty => True
  | mode text => text ∈ args
  | checkedMode m | file m _ | checkedFile m _ => ∃ text ∈ args, readMode text = .ok m

variable {vs vs' : Values}

theorem ReadFrom.check (hvs : vs.ReadFrom readMode args) (h : vs.check readMode = .ok vs') :
    vs'.ReadFrom readMode args := by
  cases vs with
  | mode text =>
    obtain ⟨m, hm, rfl⟩ := Except.map_eq_ok_iff.1 h
    exact ⟨text, hvs, Except.mapError_eq_ok_iff.1 hm⟩
  | file m path =>
    rw [Values.check] at h
    split at h
    · cases h
    · cases h
      exact hvs
  | empty | checkedMode m | checkedFile m path =>
    cases h
    exact hvs

theorem ReadFrom.add {text : String} (hvs : vs.ReadFrom readMode args) (htext : text ∈ args)
    (h : vs.add readMode text = .ok vs') : vs'.ReadFrom readMode args := by
  cases vs with
  | empty =>
    cases h
    exact htext
  | mode first =>
    obtain ⟨m, hm, rfl⟩ := Except.map_eq_ok_iff.1 h
    exact ⟨first, hvs, Except.mapError_eq_ok_iff.1 hm⟩
  | checkedMode m =>
    cases h
    exact hvs
  | file m path | checkedFile m path => cases h

end Values

namespace State

variable {s s' : State} {text : String}

theorem values_addValue (h : s.addValue readMode text = .ok s') :
    s.values.add readMode text = .ok s'.values := by
  unfold addValue at h
  split at h
  next hadd =>
    cases h
    exact hadd
  next => cases h

theorem values_turnOn {switch : Switch} (h : s.turnOn readMode switch = .ok s') :
    s.values.check readMode = .ok s'.values := by
  unfold turnOn at h
  split at h
  · cases h
  next hcheck =>
    split at h
    · cases h
    · cases h
    · split at h
      · cases h
      · cases h
        exact hcheck

theorem values_step (h : s.step readMode text = .ok s') :
    s.values.add readMode text = .ok s'.values ∨ s.values.check readMode = .ok s'.values ∨
      s'.values = s.values := by
  unfold step at h
  split at h
  -- Behind two dashes there are only values; before them the shape of the text decides.
  · exact .inl (values_addValue h)
  · split at h
    · cases h
      exact .inr (.inr rfl)
    · exact .inl (values_addValue h)
    · split at h
      · exact .inr (.inl (values_turnOn h))
      · cases h
      · split at h
        · exact .inl (values_addValue h)
        · cases h
    · split at h
      · exact .inl (values_addValue h)
      · split at h
        · exact .inr (.inl (values_turnOn h))
        · cases h

theorem readFrom_step (hs : s.values.ReadFrom readMode args) (htext : text ∈ args)
    (h : s.step readMode text = .ok s') : s'.values.ReadFrom readMode args := by
  rcases values_step h with hadd | hcheck | hsame
  · exact hs.add htext hadd
  · exact hs.check hcheck
  · rwa [hsame]

theorem readFrom_foldlM {texts : List String} (hs : s.values.ReadFrom readMode args)
    (htexts : ∀ text ∈ texts, text ∈ args) (h : texts.foldlM (step readMode) s = .ok s') :
    s'.values.ReadFrom readMode args := by
  induction texts generalizing s with
  | nil =>
    cases h
    exact hs
  | cons text texts ih =>
    rw [List.forall_mem_cons] at htexts
    rw [List.foldlM_cons] at h
    obtain ⟨s₁, hstep, hrest⟩ := Except.bind_eq_ok_iff.1 h
    exact ih (readFrom_step hs htexts.1 hstep) htexts.2 hrest

theorem readFrom_finish {o : Options} (hs : s.values.ReadFrom readMode args)
    (h : s.finish readMode = .ok o) : ∃ text ∈ args, readMode text = .ok o.mode := by
  unfold finish at h
  split at h
  · cases h
  next hcheck =>
    cases h
    exact hs.check hcheck
  next hcheck =>
    cases h
    exact hs.check hcheck
  · cases h

end State

theorem exists_of_parse {o : Options} (h : parse readMode args = .ok o) :
    ∃ text ∈ args, readMode text = .ok o.mode := by
  obtain ⟨s, hs, hfinish⟩ := Except.bind_eq_ok_iff.1 h
  have hempty : ({} : State).values.ReadFrom readMode args := trivial
  exact State.readFrom_finish (State.readFrom_foldlM hempty (fun _ htext => htext) hs) hfinish

end Arguments

namespace ReadError

def known : List ReadError := [absent, notDirectory, isDirectory, nameTooLong, zeroInPath]

theorem plain_message {e : ReadError} (h : e ∈ known) : Text.Plain e.message := by
  have hall : ∀ e ∈ known, Text.Plain e.message := by decide +kernel
  exact hall e h

end ReadError

namespace Directory

def contents (d : Directory) (stdin : List UInt8) : Option String → Except String (List UInt8)
  | none => .ok stdin
  | some path => (d.read path).mapError ReadError.message

variable {d : Directory} {e : ReadError}

theorem follow_eq_error {p : Place} {name : String} (h : d.follow p name = .error e) :
    e ∈ ReadError.known := by
  unfold follow at h
  split at h
  · cases h
    decide
  · cases h
    decide
  · split at h
    · cases h
    · split at h
      · cases h
        decide
      · -- Above the directory no name is known, and below it any name may be asked for.
        split at h
        · cases h
        · cases h
          decide
        · cases h
        · cases h
        · cases h

theorem foldlM_follow_eq_error {p : Place} {names : List String}
    (h : names.foldlM d.follow p = .error e) : e ∈ ReadError.known := by
  induction names generalizing p with
  | nil => cases h
  | cons name names ih =>
    rw [List.foldlM_cons] at h
    cases Except.bind_eq_error_iff.1 h with
    | inl h => exact follow_eq_error h
    | inr h =>
      obtain ⟨_, -, h⟩ := h
      exact ih h

theorem read_eq_error {path : String} (h : d.read path = .error e) : e ∈ ReadError.known := by
  unfold read at h
  split at h
  · cases h
    decide
  · split at h
    · cases h
      decide
    · split at h
      · cases h
        decide
      · dsimp only at h
        split at h
        next hwalk =>
          cases h
          exact foldlM_follow_eq_error hwalk
        next =>
          split at h
          · cases h
            decide
          · cases h
            decide
          · cases h

theorem plain_reason {stdin : List UInt8} {source : Option String} {reason : String}
    (h : d.contents stdin source = .error reason) : Text.Plain reason := by
  cases source with
  | none => cases h
  | some path =>
    obtain ⟨e, hread, rfl⟩ := Except.mapError_eq_error_iff.1 h
    exact ReadError.plain_message (read_eq_error hread)

end Directory

theorem Level.ofName?_name (l : Level) : ofName? l.name = some l := by
  cases l <;> rfl

theorem Host.documented_ofContents (d : Directory) (stdin : List UInt8) :
    (Host.ofContents (d.contents stdin)).Documented where
  mode_of_parse _ _ _ h :=
    Arguments.exists_of_parse (Except.mapError_eq_ok_iff.1 h)
  plain_reason _ _ h := Directory.plain_reason h
  filter?_name l := ⟨l.admits, by simp [ofContents, Level.ofName?_name], by simp [Level.admits]⟩
  filter_name l e := by simp [ofContents, Level.ofName?_name, Level.admits]

end OpcodeTable
