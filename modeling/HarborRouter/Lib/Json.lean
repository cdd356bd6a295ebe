import HarborRouter.Lib.Maps
import HarborRouter.Lib.Text

/-!
# JSON texts of string lists and string maps

`Json` is a pair of a writer and a reader; a development takes the pair it uses as a parameter. `strings` and
`object` write the compact form and read it back. A control character is written as it is.

* `Json.Faithful` : what is written is read back;
* `strings_faithful`, `object_faithful` : so it is for lists and for maps of texts.
-/

namespace Lib

/-- A writer and a reader of the values of a type. -/
structure Json (α : Type*) where
  toString : α → Option Text
  fromStr : Text → Option α

namespace Json
open Text

/-- What is written is read back, up to `same`. -/
def Faithful {α : Type*} (json : Json α) (same : α → α → Prop) : Prop :=
  ∀ a, ∃ text b, json.toString a = some text ∧ json.fromStr text = some b ∧ same b a

/-! ## Strings -/

def escape (c : Char) : Text := if c = '"' ∨ c = '\\' then ['\\', c] else [c]

def writeString (s : Text) : Text := '"' :: s.flatMap escape ++ ['"']

/-- The rest of a string after its opening quote, and what follows it. -/
def readChars : Text → Option (Text × Text)
  | '"' :: rest => some ([], rest)
  | '\\' :: c :: rest => (readChars rest).map fun r => (c :: r.1, r.2)
  | c :: rest => (readChars rest).map fun r => (c :: r.1, r.2)
  | [] => none

def readString : Text → Option (Text × Text)
  | '"' :: rest => readChars rest
  | _ => none

theorem readChars_escape (s rest : Text) : readChars (s.flatMap escape ++ '"' :: rest) = some (s, rest) := by
  induction s with
  | nil => rfl
  | cons c s ih =>
      rw [List.flatMap_cons, List.append_assoc]
      by_cases h : c = '"' ∨ c = '\\'
      · rw [escape, if_pos h]
        show (readChars (s.flatMap escape ++ '"' :: rest)).map _ = _
        rw [ih]
        rfl
      · rw [escape, if_neg h]
        rw [not_or] at h
        show readChars (c :: (s.flatMap escape ++ '"' :: rest)) = _
        rw [readChars.eq_3 _ _ (fun he => h.1 he) fun d r hd _ => h.2 hd, ih]
        rfl

theorem readString_write (s rest : Text) : readString (writeString s ++ rest) = some (s, rest) := by
  show readChars (s.flatMap escape ++ ['"'] ++ rest) = _
  rw [List.append_assoc]
  exact readChars_escape s rest

/-! ## Sequences -/

section Sequence
variable {α : Type*} (write : α → Text) (read : Text → Option (α × Text)) (close : Char)

def writeItems : List α → Text
  | [] => [close]
  | [a] => write a ++ [close]
  | a :: b :: l => write a ++ ',' :: writeItems (b :: l)

/-- The items of a sequence that is not empty, with fuel for each. -/
def readItems : Nat → Text → Option (List α)
  | 0, _ => none
  | n + 1, text =>
      match read text with
      | some (a, ',' :: rest) => (readItems n rest).map (a :: ·)
      | some (a, c :: rest) => if c = close ∧ rest = [] then some [a] else none
      | _ => none

def readSequence (text : Text) : Option (List α) :=
  if text = [close] then some [] else readItems read close text.length text

variable {write read close}

theorem readItems_write (hclose : close ≠ ',') (hread : ∀ a rest, read (write a ++ rest) = some (a, rest)) :
    ∀ {l : List α} {n : Nat}, l ≠ [] → l.length ≤ n → readItems read close n (writeItems write close l) = some l
  | [], _, hne, _ => absurd rfl hne
  | _ :: _, 0, _, h => absurd h (Nat.not_succ_le_zero _)
  | [a], n + 1, _, _ => by
      rw [writeItems, readItems, hread]
      simp
  | a :: b :: l, n + 1, _, h => by
      rw [writeItems, readItems, hread]
      have ih := readItems_write hclose hread (List.cons_ne_nil b l) (Nat.le_of_succ_le_succ h)
      simp [ih]

theorem length_le_writeItems (hwrite : ∀ a, write a ≠ []) : ∀ l : List α, l.length < (writeItems write close l).length
  | [] => Nat.one_pos
  | [a] => by
      have := List.length_pos_iff.mpr (hwrite a)
      rw [writeItems, List.length_append, List.length_singleton, List.length_singleton]
      omega
  | a :: b :: l => by
      have := length_le_writeItems hwrite (b :: l)
      rw [writeItems, List.length_append, List.length_cons, List.length_cons (a := ',')]
      omega

theorem readSequence_write (hclose : close ≠ ',') (hread : ∀ a rest, read (write a ++ rest) = some (a, rest))
    (hwrite : ∀ a, ∃ c s, c ≠ close ∧ write a = c :: s) (l : List α) :
    readSequence read close (writeItems write close l) = some l := by
  have hne : ∀ a, write a ≠ [] := fun a h => by
    obtain ⟨c, s, -, hs⟩ := hwrite a
    rw [hs] at h
    cases h
  cases l with
  | nil => exact if_pos rfl
  | cons a l =>
      obtain ⟨c, s, hc, hs⟩ := hwrite a
      have hfirst : writeItems write close (a :: l) ≠ [close] := by
        intro h
        cases l with
        | nil =>
            rw [writeItems, hs, List.cons_append] at h
            exact hc (List.cons.inj h).1
        | cons b l =>
            rw [writeItems, hs, List.cons_append] at h
            exact hc (List.cons.inj h).1
      rw [readSequence, if_neg hfirst]
      exact readItems_write hclose hread (List.cons_ne_nil a l) (length_le_writeItems hne _).le

end Sequence

/-! ## Lists and maps -/

def strings : Json (List Text) where
  toString l := some ('[' :: writeItems writeString ']' l)
  fromStr
    | '[' :: text => readSequence readString ']' text
    | _ => none

def writeMember (e : Text × Text) : Text := writeString e.1 ++ ':' :: writeString e.2

def readMember (text : Text) : Option ((Text × Text) × Text) :=
  match readString text with
  | some (k, ':' :: rest) => (readString rest).map fun r => ((k, r.1), r.2)
  | _ => none

/-- A map from texts to texts, as an object; a repeated key is read as its last member. -/
def object : Json (HashMap Text Text) where
  toString m := some ('{' :: writeItems writeMember '}' m.entries)
  fromStr
    | '{' :: text => (readSequence readMember '}' text).map HashMap.ofList
    | _ => none

theorem strings_faithful : strings.Faithful Eq := by
  intro l
  refine ⟨_, l, rfl, ?_, rfl⟩
  exact readSequence_write (by decide) readString_write (fun _ => ⟨'"', _, by decide, rfl⟩) l

theorem readMember_write (e : Text × Text) (rest : Text) : readMember (writeMember e ++ rest) = some (e, rest) := by
  rw [writeMember, List.append_assoc, readMember, readString_write, List.cons_append]
  show (readString (writeString e.2 ++ rest)).map _ = _
  rw [readString_write]
  rfl

theorem object_faithful : object.Faithful HashMap.Same := by
  intro m
  refine ⟨_, HashMap.ofList m.entries, rfl, ?_, HashMap.ofList_perm m.nodup⟩
  show (readSequence readMember '}' (writeItems writeMember '}' m.entries)).map _ = _
  rw [readSequence_write (by decide) readMember_write (fun _ => ⟨'"', _, by decide, rfl⟩)]
  rfl

end Json
end Lib
