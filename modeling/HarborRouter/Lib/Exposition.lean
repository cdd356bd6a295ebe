import HarborRouter.Lib.Text

/-!
# The Prometheus text format

A text is read line by line. A line is blank, a comment, or a sample: a name, labels in braces, a value and perhaps a
timestamp. In the value of a label a backslash, a quote and a line feed are written as escapes. Numbers are kept as
they are written.

* `LabelValue` : what a quoted label value says, and that it is read back up to its closing quote;
* `readSample_labelled` : a sample with one label is read back;
* `lines_unlines` : so are the lines of a text.
-/

namespace Lib.Exposition
open Text

/-! ## Label values -/

/-- The character that is written as a backslash and `d`. -/
def unescapeChar (d : Char) : Option Char :=
  if d = '\\' then some '\\' else if d = '"' then some '"' else if d = 'n' then some '\n' else none

/-- The text that a label value stands for. -/
def unescape : Text → Option Text
  | [] => some []
  | '\\' :: d :: v => (unescapeChar d).bind fun c => (unescape v).map (c :: ·)
  | c :: v => if c = '\\' then none else (unescape v).map (c :: ·)

/-- The text ends in a backslash that escapes what follows. -/
def pending (a : Text) : Bool := a.foldl (fun escaped c => !escaped && c = '\\') false

theorem pending_cons {c : Char} {a : Text} (h : c ≠ '\\') : pending (c :: a) = pending a := by
  rw [pending, List.foldl_cons, decide_eq_false h]
  rfl

/-- What is escaped escapes nothing. -/
theorem pending_escape (d : Char) (a : Text) : pending ('\\' :: d :: a) = pending a := rfl

def QuotesEscaped (v : Text) : Prop := ∀ a b, v = a ++ '"' :: b → pending a = true

/-- The rest of a label value after its opening quote, and what follows its closing quote. -/
def readQuoted : Text → Option (Text × Text)
  | '"' :: rest => some ([], rest)
  | '\\' :: d :: v => (unescapeChar d).bind fun c => (readQuoted v).map fun r => (c :: r.1, r.2)
  | c :: v => if c = '\\' ∨ c = '\n' then none else (readQuoted v).map fun r => (c :: r.1, r.2)
  | [] => none

/-- `v` is a label value that stands for `s`. -/
inductive LabelValue : Text → Text → Prop
  | nil : LabelValue [] []
  | char {c : Char} {v s : Text} : c ≠ '\\' → c ≠ '"' → c ≠ '\n' → LabelValue v s → LabelValue (c :: v) (c :: s)
  | escape {d c : Char} {v s : Text} : unescapeChar d = some c → LabelValue v s → LabelValue ('\\' :: d :: v) (c :: s)

namespace LabelValue
variable {v s : Text}

/-- A text without the three characters stands for itself. -/
theorem of_plain (h : s.all fun c => c ≠ '\\' && c ≠ '"' && c ≠ '\n') : LabelValue s s := by
  induction s with
  | nil => exact .nil
  | cons c s ih =>
      rw [List.all_cons, Bool.and_eq_true, Bool.and_eq_true, Bool.and_eq_true] at h
      obtain ⟨⟨⟨hslash, hquote⟩, hline⟩, hs⟩ := h
      exact .char (of_decide_eq_true hslash) (of_decide_eq_true hquote) (of_decide_eq_true hline) (ih hs)

theorem unescape_eq (h : LabelValue v s) : unescape v = some s := by
  induction h with
  | nil => rfl
  | char hslash _ _ _ ih =>
      rw [unescape.eq_3 _ _ fun _ _ hc _ => hslash hc, if_neg hslash, ih]
      rfl
  | escape hd _ ih =>
      rw [unescape, hd, ih]
      rfl

theorem newline_notMem (h : LabelValue v s) : '\n' ∉ v := by
  induction h with
  | nil => exact List.not_mem_nil
  | char _ _ hline _ ih => exact List.not_mem_cons_of_ne_of_not_mem hline.symm ih
  | escape hd _ ih =>
      refine List.not_mem_cons_of_ne_of_not_mem (by decide) (List.not_mem_cons_of_ne_of_not_mem ?_ ih)
      rintro rfl
      cases hd

theorem quotesEscaped (h : LabelValue v s) : QuotesEscaped v := by
  induction h with
  | nil =>
      intro a b hcut
      exact absurd hcut.symm (List.append_ne_nil_of_right_ne_nil a (List.cons_ne_nil _ b))
  | char hslash hquote _ _ ih =>
      intro a b hcut
      cases a with
      | nil => exact absurd (List.cons.inj hcut).1 hquote
      | cons e a =>
          obtain ⟨he, hrest⟩ := List.cons.inj hcut
          rw [← he, pending_cons hslash]
          exact ih a b hrest
  | escape _ _ ih =>
      intro a b hcut
      cases a with
      | nil => exact absurd (List.cons.inj hcut).1 (by decide)
      | cons e a =>
          obtain ⟨he, hrest⟩ := List.cons.inj hcut
          rw [← he]
          cases a with
          | nil => rfl
          | cons d' a =>
              rw [pending_escape]
              exact ih a b (List.cons.inj hrest).2

/-- A label value is read up to its closing quote, whatever follows. -/
theorem readQuoted_eq (h : LabelValue v s) (rest : Text) : readQuoted (v ++ '"' :: rest) = some (s, rest) := by
  induction h with
  | nil => rfl
  | char hslash hquote hline _ ih =>
      rw [List.cons_append, readQuoted.eq_3 _ _ hquote fun _ _ hc _ => hslash hc,
        if_neg (not_or.mpr ⟨hslash, hline⟩), ih]
      rfl
  | escape hd _ ih =>
      rw [List.cons_append, List.cons_append, readQuoted, hd, ih]
      rfl

end LabelValue

/-! ## Samples -/

structure Sample where
  name : Text
  labels : List (Text × Text)
  value : Text
  timestamp : Option Text
  deriving DecidableEq

def isBlank (c : Char) : Bool := c = ' ' || c = '\t'

def skipBlanks (s : Text) : Text := s.dropWhile isBlank

def isLabelChar (c : Char) : Bool := c.isAlphanum || c = '_'

def isNameChar (c : Char) : Bool := isLabelChar c || c = ':'

/-- A name of these characters; it does not begin with a digit. -/
def isName (p : Char → Bool) (name : Text) : Bool := name.all p && name.head?.any fun c => !c.isDigit

def readName (p : Char → Bool) (s : Text) : Option (Text × Text) :=
  if isName p (s.takeWhile p) then some (s.takeWhile p, s.dropWhile p) else none

/-- What follows `c`, after blanks. -/
def expect (c : Char) (s : Text) : Option Text :=
  if (skipBlanks s).head? = some c then some (skipBlanks s).tail else none

def readLabel (s : Text) : Option ((Text × Text) × Text) := do
  let (name, s) ← readName isLabelChar (skipBlanks s)
  let s ← expect '=' s
  let s ← expect '"' s
  let (value, s) ← readQuoted s
  some ((name, value), s)

/-- The labels after the opening brace, with fuel for each, and what follows the closing one. -/
def readLabels : Nat → Text → Option (List (Text × Text) × Text)
  | 0, _ => none
  | n + 1, s =>
      match expect '\x7d' s with
      | some rest => some ([], rest)
      | none => do
          let (label, s) ← readLabel s
          match expect ',' s with
          | some s => (readLabels n s).map fun r => (label :: r.1, r.2)
          | none => (expect '\x7d' s).map fun rest => ([label], rest)

def tokens (s : Text) : List Text := (s.splitOnP isBlank).filter (· ≠ [])

/-- The labels of a sample, in braces, if it has any. -/
def readBraces (s : Text) : Option (List (Text × Text) × Text) :=
  match expect '\x7b' s with
  | some s => readLabels s.length s
  | none => some ([], s)

def readSample (line : Text) : Option Sample := do
  let (name, s) ← readName isNameChar (skipBlanks line)
  let (labels, s) ← readBraces s
  match tokens s with
  | [value] => some ⟨name, labels, value, none⟩
  | [value, timestamp] => some ⟨name, labels, value, some timestamp⟩
  | _ => none

section Reading
variable {p : Char → Bool} {name label v s value rest : Text} {c d : Char}

theorem isBlank_of_isNameChar (h : isNameChar c = true) : isBlank c = false := by
  rw [isBlank, Bool.or_eq_false_iff, decide_eq_false_iff_not, decide_eq_false_iff_not]
  constructor
  · rintro rfl
    exact absurd h (by decide)
  · rintro rfl
    exact absurd h (by decide)

theorem isNameChar_of_isLabelChar (h : isLabelChar c = true) : isNameChar c = true := by
  rw [isNameChar, h]
  rfl

theorem skipBlanks_cons (h : isBlank c = false) : skipBlanks (c :: s) = c :: s :=
  List.dropWhile_cons_of_neg (Bool.eq_false_iff.mp h)

theorem expect_cons (h : isBlank c = false) : expect c (c :: s) = some s := by
  rw [expect, skipBlanks_cons h]
  exact if_pos rfl

theorem expect_of_ne (h : isBlank d = false) (hne : d ≠ c) : expect c (d :: s) = none := by
  rw [expect, skipBlanks_cons h]
  exact if_neg fun he => hne (Option.some.inj he)

theorem exists_cons_of_isName (h : isName p name = true) : ∃ c r, name = c :: r ∧ p c = true := by
  rw [isName, Bool.and_eq_true] at h
  cases name with
  | nil => exact absurd h.2 Bool.false_ne_true
  | cons c r => exact ⟨c, r, rfl, List.all_eq_true.mp h.1 c List.mem_cons_self⟩

theorem notMem_of_isName (h : isName p name = true) (hc : p c = false) : c ∉ name := by
  intro hm
  have hall := List.all_eq_true.mp (Bool.and_eq_true_iff.mp h).1 c hm
  rw [hc] at hall
  cases hall

theorem skipBlanks_name (hp : ∀ c, p c = true → isNameChar c = true) (h : isName p name = true) (s : Text) :
    skipBlanks (name ++ s) = name ++ s := by
  obtain ⟨c, r, rfl, hc⟩ := exists_cons_of_isName h
  exact skipBlanks_cons (isBlank_of_isNameChar (hp c hc))

theorem readName_append (h : isName p name = true) (hd : p d = false) :
    readName p (name ++ d :: rest) = some (name, d :: rest) := by
  have hall : ∀ c ∈ name, p c = true := List.all_eq_true.mp (Bool.and_eq_true_iff.mp h).1
  have htake : (name ++ d :: rest).takeWhile p = name := by
    rw [List.takeWhile_append_of_pos hall, List.takeWhile_cons_of_neg (Bool.eq_false_iff.mp hd), List.append_nil]
  have hdrop : (name ++ d :: rest).dropWhile p = d :: rest := by
    rw [List.dropWhile_append_of_pos hall, List.dropWhile_cons_of_neg (Bool.eq_false_iff.mp hd)]
  rw [readName, htake, hdrop, if_pos h]

theorem tokens_blank_cons (hc : isBlank c = true) (hne : value ≠ []) (hvalue : ∀ d ∈ value, isBlank d = false) :
    tokens (c :: value) = [value] := by
  have hsplit : (c :: value).splitOnP isBlank = [[], value] := by
    rw [List.splitOnP_cons_eq_if_modifyHead, if_pos hc, List.splitOnP_eq_singleton hvalue]
  rw [tokens, hsplit, List.filter_cons_of_neg (by decide)]
  exact List.filter_cons_of_pos (decide_eq_true hne)

theorem readLabel_append (hlabel : isName isLabelChar label = true) (hv : LabelValue v s) (rest : Text) :
    readLabel (label ++ '=' :: '"' :: (v ++ '"' :: rest)) = some ((label, s), rest) := by
  have hequals : expect '=' ('=' :: '"' :: (v ++ '"' :: rest)) = some ('"' :: (v ++ '"' :: rest)) :=
    expect_cons (by decide)
  have hquote : expect '"' ('"' :: (v ++ '"' :: rest)) = some (v ++ '"' :: rest) := expect_cons (by decide)
  rw [readLabel, skipBlanks_name (fun _ => isNameChar_of_isLabelChar) hlabel, readName_append hlabel (by decide)]
  simp only [Option.bind_eq_bind, Option.bind_some, hequals, hquote, hv.readQuoted_eq]

theorem readLabels_append (n : Nat) (hlabel : isName isLabelChar label = true) (hv : LabelValue v s) (rest : Text) :
    readLabels (n + 1) (label ++ '=' :: '"' :: (v ++ '"' :: '\x7d' :: rest)) = some ([(label, s)], rest) := by
  have hopen : expect '\x7d' (label ++ '=' :: '"' :: (v ++ '"' :: '\x7d' :: rest)) = none := by
    obtain ⟨c, r, rfl, hc⟩ := exists_cons_of_isName hlabel
    refine expect_of_ne (isBlank_of_isNameChar (isNameChar_of_isLabelChar hc)) ?_
    rintro rfl
    exact absurd hc (by decide)
  have hcomma : expect ',' ('\x7d' :: rest) = none := expect_of_ne (by decide) (by decide)
  have hclose : expect '\x7d' ('\x7d' :: rest) = some rest := expect_cons (by decide)
  rw [readLabels, hopen]
  simp only [Option.bind_eq_bind, readLabel_append hlabel hv, Option.bind_some, hcomma, hclose, Option.map_some]

/-- A sample with one label is read back. -/
theorem readSample_labelled (hname : isName isNameChar name = true) (hlabel : isName isLabelChar label = true)
    (hv : LabelValue v s) (hne : value ≠ []) (hvalue : ∀ d ∈ value, isBlank d = false) :
    readSample (name ++ '\x7b' :: (label ++ '=' :: '"' :: (v ++ '"' :: '\x7d' :: ' ' :: value))) =
      some ⟨name, [(label, s)], value, none⟩ := by
  have hbraces : readBraces ('\x7b' :: (label ++ '=' :: '"' :: (v ++ '"' :: '\x7d' :: ' ' :: value))) =
      some ([(label, s)], ' ' :: value) := by
    have hlength : (label ++ '=' :: '"' :: (v ++ '"' :: '\x7d' :: ' ' :: value)).length ≠ 0 := by simp
    obtain ⟨n, hn⟩ := Nat.exists_eq_succ_of_ne_zero hlength
    rw [readBraces, expect_cons (by decide)]
    show readLabels _ _ = _
    rw [hn, readLabels_append n hlabel hv]
  have htokens : tokens (' ' :: value) = [value] := tokens_blank_cons (by decide) hne hvalue
  rw [readSample, skipBlanks_name (fun _ h => h) hname, readName_append hname (by decide)]
  simp only [Option.bind_eq_bind, Option.bind_some, hbraces, htokens]

end Reading

/-! ## Lines -/

def lines (text : Text) : List Text := text.splitOn '\n'

def unlines (ls : List Text) : Text := ls.flatMap (· ++ ['\n'])

def isComment (line : Text) : Bool := (skipBlanks line).head?.all (· = '#')

/-- Every line is a comment or a sample. -/
def IsExposition (text : Text) : Prop := ∀ l ∈ lines text, isComment l = true ∨ (readSample l).isSome

def isSampleOf (name line : Text) : Bool := (readSample line).any (·.name = name)

def sampleLines (text name : Text) : List Text := (lines text).filter (isSampleOf name)

theorem readSample_of_isComment {line : Text} (h : isComment line = true) : readSample line = none := by
  have hname : readName isNameChar (skipBlanks line) = none := by
    rw [isComment] at h
    cases hline : skipBlanks line with
    | nil => rfl
    | cons c rest =>
        rw [hline] at h
        obtain rfl : c = '#' := of_decide_eq_true h
        rfl
  rw [readSample, hname]
  rfl

theorem filter_comment_cons {line : Text} (name : Text) (h : isComment line = true) (ls : List Text) :
    (line :: ls).filter (isSampleOf name) = ls.filter (isSampleOf name) := by
  have hline : isSampleOf name line = false := by
    rw [isSampleOf, readSample_of_isComment h]
    rfl
  exact List.filter_cons_of_neg (Bool.eq_false_iff.mp hline)

theorem lines_append (a b : Text) : lines (a ++ '\n' :: b) = lines a ++ lines b := List.splitOn_append_cons_self a b

/-- The lines of a text are read back, before whatever follows. -/
theorem lines_unlines {ls : List Text} (h : ∀ l ∈ ls, '\n' ∉ l) (text : Text) :
    lines (unlines ls ++ text) = ls ++ lines text := by
  induction ls with
  | nil => rfl
  | cons l ls ih =>
      obtain ⟨hl, hls⟩ := List.forall_mem_cons.mp h
      have hcut : unlines (l :: ls) ++ text = l ++ '\n' :: (unlines ls ++ text) := by simp [unlines]
      rw [hcut, lines_append, ih hls, lines, List.splitOn_eq_singleton hl]
      rfl

end Lib.Exposition
