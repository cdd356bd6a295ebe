import HarborRouter.Lib.Stack
import HarborRouter.Lib.Text

/-!
# URL paths

How a URL parser reads what follows the authority of an `http` URL: the path ends at `?` or `#`, `/` and `\` separate
its segments, single-dot segments are dropped, double-dot segments pop the segment before them (each also spelled
with `%2e`), and every other segment is percent-encoded and pushed. `path` is the path that is sent.

* `serialize_prefix_iff` : prefixes of paths are prefixes of segment lists;
* `path_below` : what stands below a root is the run of its own script over the settled root;
* `stays_below`, `leaves_root` : the path stays below the root exactly when that script is balanced.
-/

namespace Lib.UrlPath
open Stack

/-! ## Segments -/

def isSeparator (c : Char) : Bool := c == '/' || c == '\\'

/-- `?` starts the query and `#` the fragment. -/
def endsPath (c : Char) : Bool := c == '?' || c == '#'

def pathPart (s : Text) : Text := s.takeWhile (!endsPath ·)

def segments (s : Text) : List Text := s.splitOnP isSeparator

def isSingleDot (seg : Text) : Bool := seg.map Char.toLower ∈ [".".toList, "%2e".toList]

def isDoubleDot (seg : Text) : Bool :=
  seg.map Char.toLower ∈ ["..".toList, ".%2e".toList, "%2e.".toList, "%2e%2e".toList]

theorem isDoubleDot_of_isSingleDot {seg : Text} (h : isSingleDot seg = true) : isDoubleDot seg = false := by
  simp only [isSingleDot, decide_eq_true_eq, List.mem_cons, List.not_mem_nil, or_false] at h
  unfold isDoubleDot
  rcases h with h | h <;> rw [h] <;> decide

/-! ## Percent-encoding -/

def hexDigit (n : Nat) : Char := if n < 10 then Char.ofNat (48 + n) else Char.ofNat (55 + n)

def percentByte (b : UInt8) : Text := ['%', hexDigit (b.toNat / 16), hexDigit (b.toNat % 16)]

/-- The path percent-encode set of the URL standard. The crate `url` 2.5.8 leaves '^' as it is. -/
def mustEncode (c : Char) : Bool :=
  c.toNat < 0x20 || 0x7E < c.toNat || c ∈ " \"#<>?^`".toList || c.toNat == 0x7B || c.toNat == 0x7D

def encodeChar (c : Char) : Text :=
  if mustEncode c then (String.utf8EncodeChar c).flatMap percentByte else [c]

def encode (seg : Text) : Text := seg.flatMap encodeChar

/-! ## The parser -/

/-- What one segment does to the path, by the URL standard; in the crate `url` 2.5.8 a double-dot segment does not pop
one letter with a ':' or '|'. -/
def segmentOp (seg : Text) : Op Text :=
  if isDoubleDot seg then .pop else if isSingleDot seg then .skip else .push (encode seg)

/-- The script of a path; a dot segment at its end leaves an empty last segment. -/
def script : List Text → List (Op Text)
  | [] => []
  | [seg] => if isDoubleDot seg || isSingleDot seg then [segmentOp seg, .push []] else [segmentOp seg]
  | seg :: rest => segmentOp seg :: script rest

def serialize (segs : List Text) : Text := segs.flatMap ('/' :: ·)

/-- The segments of the path of a URL whose text after the authority is `/` and then `rest`. -/
def parse (rest : Text) : List Text := (run (script (segments (pathPart rest))) []).reverse

def path : Text → Text
  | '/' :: rest => serialize (parse rest)
  | '\\' :: rest => serialize (parse rest)
  | rest => serialize (parse rest)

/-- The text after the authority: what follows the first separator or path end after `scheme:` and its slashes. -/
def afterAuthority (url : Text) : Text :=
  (((url.dropWhile (· ≠ ':')).tail).dropWhile isSeparator).dropWhile fun c => !isSeparator c && !endsPath c

/-- The path a client sends for a URL text without tabs, newlines and surrounding blanks. -/
def urlPath (url : Text) : Text := path (afterAuthority url)

/-! ## Segments of texts -/

theorem segments_append (a b : Text) : segments (a ++ '/' :: b) = segments a ++ segments b :=
  List.splitOnP_append_cons a b (by decide)

theorem segments_ne_nil (s : Text) : segments s ≠ [] := List.splitOnP_ne_nil isSeparator s

theorem segments_of_clean {s : Text} (h : ∀ c ∈ s, isSeparator c = false) : segments s = [s] :=
  List.splitOnP_eq_singleton h

theorem clean_of_mem_segments {s seg : Text} (h : seg ∈ segments s) : ∀ c ∈ seg, isSeparator c = false := by
  induction s generalizing seg with
  | nil =>
      rw [segments, List.splitOnP_nil, List.mem_singleton] at h
      rw [h]; nofun
  | cons d s ih =>
      rw [segments, List.splitOnP_cons_eq_if_modifyHead] at h
      split at h
      · rcases List.mem_cons.mp h with rfl | h
        · nofun
        · exact ih h
      · obtain ⟨a, as, has⟩ := List.exists_cons_of_ne_nil (segments_ne_nil s)
        rw [segments] at has
        rw [has, List.modifyHead_cons] at h
        rcases List.mem_cons.mp h with rfl | h
        · intro c hc
          rcases List.mem_cons.mp hc with rfl | hc
          · simp_all
          · exact @ih a (by rw [segments, has]; exact List.mem_cons_self) c hc
        · exact ih (by rw [segments, has]; exact List.mem_cons_of_mem a h)

theorem serialize_segments {s : Text} (h : '\\' ∉ s) : serialize (segments s) = '/' :: s := by
  induction s with
  | nil => rfl
  | cons c s ih =>
      have hs := ih fun hm => h (List.mem_cons_of_mem c hm)
      have hc : c ≠ '\\' := fun he => h (he ▸ List.mem_cons_self)
      rw [segments, List.splitOnP_cons_eq_if_modifyHead]
      by_cases hslash : c = '/'
      · subst hslash
        rw [if_pos (by decide)]
        change '/' :: ([] ++ serialize (segments s)) = _
        rw [hs, List.nil_append]
      · rw [if_neg (by simp [isSeparator, hslash, hc])]
        obtain ⟨a, as, has⟩ := List.exists_cons_of_ne_nil (segments_ne_nil s)
        rw [has] at hs
        rw [segments] at has
        rw [has, List.modifyHead_cons]
        change '/' :: (c :: (a ++ serialize as)) = _
        change '/' :: (a ++ serialize as) = '/' :: s at hs
        rw [(List.cons.inj hs).2]

theorem pathPart_append {a : Text} (h : ∀ c ∈ a, endsPath c = false) (b : Text) :
    pathPart (a ++ b) = a ++ pathPart b :=
  List.takeWhile_append_of_pos fun c hc => by rw [h c hc]; rfl

theorem pathPart_append_of_ended {a : Text} (h : ∃ c ∈ a, endsPath c = true) (b : Text) :
    pathPart (a ++ b) = pathPart a := by
  induction a with
  | nil => obtain ⟨c, hc, -⟩ := h; cases hc
  | cons d a ih =>
      by_cases hd : endsPath d = true
      · simp [pathPart, hd]
      · obtain ⟨c, hc, he⟩ := h
        have hc : c ∈ a := (List.mem_cons.mp hc).resolve_left fun hcd => hd (hcd ▸ he)
        have := ih ⟨c, hc, he⟩
        simp only [pathPart, List.cons_append, List.takeWhile_cons, hd] at this ⊢
        rw [this]

/-- A segment as a URL text spells it. -/
def Clean (seg : Text) : Prop := ∀ c ∈ seg, isSeparator c = false ∧ endsPath c = false

instance (seg : Text) : Decidable (Clean seg) :=
  decidable_of_iff ((seg.all fun c => !isSeparator c && !endsPath c) = true) (by simp [Clean])

theorem segments_below {root : List Text} (hroot : ∀ seg ∈ root, Clean seg) (a b : Text) (ha : Clean a) :
    segments (pathPart (a ++ (serialize root ++ '/' :: b))) = a :: root ++ segments (pathPart b) := by
  induction root generalizing a with
  | nil =>
      rw [pathPart_append fun c hc => (ha c hc).2]
      change segments (a ++ '/' :: pathPart b) = _
      rw [segments_append, segments_of_clean fun c hc => (ha c hc).1, List.singleton_append]
  | cons seg root ih =>
      have hseg := ih (fun s hs => hroot s (List.mem_cons_of_mem seg hs)) seg (hroot seg List.mem_cons_self)
      rw [pathPart_append fun c hc => (ha c hc).2]
      change segments (a ++ '/' :: pathPart (seg ++ serialize root ++ '/' :: b)) = _
      rw [segments_append, segments_of_clean fun c hc => (ha c hc).1, List.append_assoc, hseg]
      rfl

/-! ## Scripts -/

theorem script_cons_cons (a b : Text) (rest : List Text) :
    script (a :: b :: rest) = segmentOp a :: script (b :: rest) := rfl

/-- Segments that are followed by others are scripted one by one. -/
theorem script_append {bs : List Text} (h : bs ≠ []) (as : List Text) :
    script (as ++ bs) = as.map segmentOp ++ script bs := by
  induction as with
  | nil => rfl
  | cons a as ih =>
      obtain ⟨c, cs, hc⟩ : ∃ c cs, as ++ bs = c :: cs := List.exists_cons_of_ne_nil (by simp [h])
      rw [List.cons_append, hc, script_cons_cons, ← hc, ih, List.map_cons, List.cons_append]

theorem script_singleton (seg : Text) :
    script [seg] = [segmentOp seg] ++ (if isDoubleDot seg || isSingleDot seg then [.push []] else []) := by
  unfold script; split <;> rfl

theorem balanced_script (segs : List Text) (d : Nat) :
    balanced d (script segs) = balanced d (segs.map segmentOp) := by
  rcases List.eq_nil_or_concat segs with rfl | ⟨as, seg, rfl⟩
  · rfl
  · rw [List.concat_eq_append, script_append (List.cons_ne_nil seg []), script_singleton, List.map_append,
      ← List.append_assoc, balanced_append (by split <;> rfl)]
    rfl

/-- A path ends with a segment of its own. -/
theorem script_ends {segs : List Text} (h : segs ≠ []) : ∃ os x, script segs = os ++ [.push x] := by
  rcases List.eq_nil_or_concat segs with rfl | ⟨as, seg, rfl⟩
  · exact absurd rfl h
  · rw [List.concat_eq_append, script_append (List.cons_ne_nil seg []), script_singleton]
    by_cases hd : isDoubleDot seg || isSingleDot seg
    · rw [if_pos hd, ← List.append_assoc]
      exact ⟨_, _, rfl⟩
    · have hop : segmentOp seg = .push (encode seg) := by
        rw [Bool.or_eq_true, not_or] at hd
        rw [segmentOp, if_neg hd.1, if_neg hd.2]
      rw [if_neg hd, List.append_nil, hop]
      exact ⟨_, _, rfl⟩

theorem push_mem_script {segs : List Text} {x : Text} (h : .push x ∈ script segs) :
    x = [] ∨ ∃ seg ∈ segs, x = encode seg := by
  have hop : ∀ seg, segmentOp seg = .push x → x = encode seg := fun seg hs => by
    unfold segmentOp at hs
    split at hs
    · cases hs
    · split at hs <;> cases hs
      rfl
  rcases List.eq_nil_or_concat segs with rfl | ⟨as, seg, rfl⟩
  · cases h
  · rw [List.concat_eq_append, script_append (List.cons_ne_nil seg []), script_singleton] at h
    rcases List.mem_append.mp h with h | h
    · obtain ⟨s, hs, he⟩ := List.mem_map.mp h
      exact .inr ⟨s, by simp [hs], hop s he⟩
    · rcases List.mem_append.mp h with h | h
      · exact .inr ⟨seg, by simp, hop seg (List.mem_singleton.mp h).symm⟩
      · split at h
        · cases List.mem_singleton.mp h; exact .inl rfl
        · cases h

/-! ## Prefixes -/

theorem serialize_head (bs : List Text) : serialize bs = [] ∨ ∃ t, serialize bs = '/' :: t := by
  cases bs with
  | nil => exact .inl rfl
  | cons b bs => exact .inr ⟨b ++ serialize bs, rfl⟩

/-- Texts without `/` that are followed by `/` or by nothing are compared as a whole. -/
theorem append_prefix_append {a b x y : Text} (ha : '/' ∉ a) (hb : '/' ∉ b) (hy : y = [] ∨ ∃ t, y = '/' :: t) :
    a ++ '/' :: x <+: b ++ y ↔ a = b ∧ '/' :: x <+: y := by
  constructor
  · intro h
    induction a generalizing b with
    | nil =>
        cases b with
        | nil => exact ⟨rfl, h⟩
        | cons d b =>
            have := (List.cons_prefix_cons.mp h).1
            exact absurd (this ▸ List.mem_cons_self) hb
    | cons c a ih =>
        cases b with
        | nil =>
            rcases hy with rfl | ⟨t, rfl⟩
            · exact absurd (List.prefix_nil.mp h) (List.cons_ne_nil _ _)
            · have := (List.cons_prefix_cons.mp h).1
              exact absurd (this ▸ List.mem_cons_self) ha
        | cons d b =>
            rw [List.cons_append, List.cons_append] at h
            obtain ⟨rfl, htail⟩ := List.cons_prefix_cons.mp h
            have := ih (fun hm => ha (List.mem_cons_of_mem _ hm)) (fun hm => hb (List.mem_cons_of_mem _ hm)) htail
            exact ⟨by rw [this.1], this.2⟩
  · rintro ⟨rfl, h⟩
    exact (List.prefix_append_right_inj a).mpr h

/-- Between segments without `/`, a path continues another exactly when its segments do. -/
theorem serialize_prefix_iff {as bs : List Text} (ha : ∀ s ∈ as, '/' ∉ s) (hb : ∀ s ∈ bs, '/' ∉ s) :
    serialize as ++ ['/'] <+: serialize bs ↔ as <+: bs ∧ as.length < bs.length := by
  induction as generalizing bs with
  | nil =>
      cases bs with
      | nil => simp [serialize]
      | cons b bs => simp [serialize]
  | cons a as ih =>
      cases bs with
      | nil => simp [serialize]
      | cons b bs =>
          obtain ⟨x, hx⟩ : ∃ x, serialize as ++ ['/'] = '/' :: x := by
            rcases serialize_head as with h | ⟨t, h⟩ <;> rw [h] <;> exact ⟨_, rfl⟩
          have := @ih bs (fun s hs => ha s (List.mem_cons_of_mem _ hs))
            (fun s hs => hb s (List.mem_cons_of_mem _ hs))
          change '/' :: (a ++ serialize as ++ ['/']) <+: '/' :: (b ++ serialize bs) ↔ _
          rw [List.cons_prefix_cons, List.append_assoc, hx, append_prefix_append (ha a List.mem_cons_self)
            (hb b List.mem_cons_self) (serialize_head bs), ← hx, this, List.cons_prefix_cons]
          simp [and_assoc]

theorem slash_notMem_encode {seg : Text} (h : '/' ∉ seg) : '/' ∉ encode seg := by
  have hhex : ∀ n < 16, hexDigit n ≠ '/' := by decide
  intro hm
  obtain ⟨c, hc, hm⟩ := List.mem_flatMap.mp hm
  unfold encodeChar at hm
  split at hm
  · obtain ⟨b, -, hb⟩ := List.mem_flatMap.mp hm
    have hlt : b.toNat < 256 := b.toNat_lt
    simp only [percentByte, List.mem_cons, List.not_mem_nil, or_false] at hb
    rcases hb with hb | hb | hb
    · exact absurd hb (by decide)
    · exact hhex _ (by omega) hb.symm
    · exact hhex _ (by omega) hb.symm
  · rw [List.mem_singleton] at hm
    exact h (hm ▸ hc)

theorem slash_notMem_of_push {s x : Text} (h : .push x ∈ script (segments s)) : '/' ∉ x := by
  rcases push_mem_script h with rfl | ⟨seg, hseg, rfl⟩
  · exact List.not_mem_nil
  · exact slash_notMem_encode fun hm => absurd (clean_of_mem_segments hseg _ hm) (by decide)

/-! ## Paths below a root -/

/-- What a root's segments leave on the stack, its last segment on top. -/
def settle (root : List Text) : List Text := run (root.map segmentOp) []

/-- The path below a root is the run of its own script over the settled root. -/
theorem path_below {root : List Text} (hroot : ∀ seg ∈ root, Clean seg) (b : Text) :
    path (serialize root ++ '/' :: b) = serialize (run (script (segments (pathPart b))) (settle root)).reverse := by
  have hscript : ∀ r : List Text, run (script (r ++ segments (pathPart b))) [] =
      run (script (segments (pathPart b))) (settle r) := fun r => by
    rw [script_append (segments_ne_nil _), run_append]
    rfl
  cases root with
  | nil => rfl
  | cons a root =>
      change serialize (run (script (segments (pathPart (a ++ serialize root ++ '/' :: b)))) []).reverse = _
      rw [List.append_assoc, segments_below (fun s hs => hroot s (List.mem_cons_of_mem a hs)) a b
        (hroot a List.mem_cons_self), hscript]

theorem slash_notMem_settle {root : List Text} (hroot : ∀ seg ∈ root, Clean seg) : ∀ s ∈ settle root, '/' ∉ s := by
  intro s hs
  obtain ⟨ys, zs, he, hz, hy⟩ := run_eq (root.map segmentOp) []
  rw [settle, he, List.suffix_nil.mp hz, List.append_nil] at hs
  obtain ⟨seg, hseg, hop⟩ := List.mem_map.mp (hy s hs)
  have : s = encode seg := by
    unfold segmentOp at hop
    split at hop
    · cases hop
    · split at hop <;> cases hop
      rfl
  rw [this]
  exact slash_notMem_encode fun hm => absurd (hroot seg hseg _ hm).1 (by decide)

section Below
variable {root : List Text} (hroot : ∀ seg ∈ root, Clean seg) (b : Text)
include hroot

theorem below_iff :
    serialize (settle root).reverse ++ ['/'] <+: path (serialize root ++ '/' :: b) ↔
      settle root <:+ run (script (segments (pathPart b))) (settle root) ∧
        (settle root).length < (run (script (segments (pathPart b))) (settle root)).length := by
  rw [path_below hroot, serialize_prefix_iff, List.reverse_prefix, List.length_reverse, List.length_reverse]
  · exact fun s hs => slash_notMem_settle hroot s (List.mem_reverse.mp hs)
  · intro s hs
    obtain ⟨ys, zs, he, hz, hy⟩ := run_eq (script (segments (pathPart b))) (settle root)
    rw [List.mem_reverse, he, List.mem_append] at hs
    rcases hs with hs | hs
    · exact slash_notMem_of_push (hy s hs)
    · exact slash_notMem_settle hroot s (hz.subset hs)

/-- A path whose own segments are balanced stays below its root. -/
theorem stays_below (h : balanced 0 ((segments (pathPart b)).map segmentOp) = true) :
    serialize (settle root).reverse ++ ['/'] <+: path (serialize root ++ '/' :: b) := by
  rw [below_iff hroot]
  rw [← balanced_script] at h
  obtain ⟨os, x, hos⟩ := script_ends (segments_ne_nil (pathPart b))
  rw [hos] at h ⊢
  rw [balanced_append (by rfl)] at h
  have hkeep : settle root <:+ run os (settle root) := floor_suffix [] h
  rw [run_append]
  exact ⟨hkeep.trans (List.suffix_cons x _), Nat.lt_succ_of_le hkeep.length_le⟩

/-- A path that pops its root leaves it, unless it spells the root's last segment again. -/
theorem leaves_root {floor : List Text} {p : Text} (hp : settle root = p :: floor)
    (hfresh : .push p ∉ script (segments (pathPart b)))
    (h : serialize (settle root).reverse ++ ['/'] <+: path (serialize root ++ '/' :: b)) :
    balanced 0 ((segments (pathPart b)).map segmentOp) = true := by
  rw [← balanced_script, ← @floor_kept_iff _ _ floor p hfresh, ← hp]
  exact ((below_iff hroot b).mp h).1

end Below

theorem exists_unpushed (os : List (Op Text)) : ∃ n, 0 < n ∧ .push (List.replicate n 'a') ∉ os := by
  suffices h : ∃ n, 0 < n ∧ ∀ x, .push x ∈ os → x.length < n by
    obtain ⟨n, hn, hlt⟩ := h
    refine ⟨n, hn, fun hm => ?_⟩
    have := hlt _ hm
    rw [List.length_replicate] at this
    exact absurd this (Nat.lt_irrefl n)
  induction os with
  | nil => exact ⟨1, Nat.one_pos, nofun⟩
  | cons o os ih =>
      obtain ⟨n, hn, hlt⟩ := ih
      cases o with
      | push a =>
          refine ⟨n + a.length + 1, Nat.succ_pos _, fun x hx => ?_⟩
          rcases List.mem_cons.mp hx with hx | hx
          · cases hx; omega
          · have := hlt x hx; omega
      | pop => exact ⟨n, hn, fun x hx => hlt x ((List.mem_cons.mp hx).resolve_left nofun)⟩
      | skip => exact ⟨n, hn, fun x hx => hlt x ((List.mem_cons.mp hx).resolve_left nofun)⟩

/-! ## Plain segments -/

/-- A segment that the parser pushes as it is spelled. -/
def Plain (seg : Text) : Prop := segmentOp seg = .push seg

theorem settle_plain {root : List Text} {seg : Text} (h : Plain seg) :
    settle (root ++ [seg]) = seg :: settle root := by
  rw [settle, List.map_append, run_append, List.map_singleton, h]
  rfl

theorem Plain.not_dots {seg : Text} (h : Plain seg) : (isDoubleDot seg || isSingleDot seg) = false := by
  unfold Plain segmentOp at h
  split at h
  · cases h
  · split at h
    · cases h
    · simp_all

theorem script_plain {segs : List Text} (h : ∀ seg ∈ segs, Plain seg) : script segs = segs.map .push := by
  rcases List.eq_nil_or_concat segs with rfl | ⟨as, seg, rfl⟩
  · rfl
  · rw [List.concat_eq_append] at h ⊢
    have hseg : Plain seg := h seg (by simp)
    have has : as.map segmentOp = as.map .push := List.map_congr_left fun a ha => h a (by simp [ha])
    rw [script_append (List.cons_ne_nil seg []), script_singleton, hseg.not_dots, if_neg Bool.false_ne_true, has,
      hseg, List.map_append, List.append_nil, List.map_singleton]

theorem plain_of_forall {seg : Text} (henc : ∀ c ∈ seg, mustEncode c = false)
    (hdot : ∀ c ∈ seg, c.toLower ≠ '.' ∧ c.toLower ≠ '%') : Plain seg := by
  have hhead : ∀ pat : Text, '.' ∈ pat ∨ '%' ∈ pat → seg.map Char.toLower ≠ pat := by
    rintro pat hpat rfl
    rcases hpat with h | h <;> obtain ⟨c, hc, he⟩ := List.mem_map.mp h
    · exact (hdot c hc).1 he
    · exact (hdot c hc).2 he
  have hdouble : isDoubleDot seg = false := by
    simp only [isDoubleDot, decide_eq_false_iff_not, List.mem_cons, List.not_mem_nil, or_false, not_or]
    exact ⟨hhead _ (by decide), hhead _ (by decide), hhead _ (by decide), hhead _ (by decide)⟩
  have hsingle : isSingleDot seg = false := by
    simp only [isSingleDot, decide_eq_false_iff_not, List.mem_cons, List.not_mem_nil, or_false, not_or]
    exact ⟨hhead _ (by decide), hhead _ (by decide)⟩
  have hself : encode seg = seg := by
    have : seg.flatMap encodeChar = seg.flatMap fun c => [c] :=
      List.flatMap_congr fun c hc => by rw [encodeChar, henc c hc]; rfl
    rw [encode, this, List.flatMap_singleton']
  rw [Plain, segmentOp, hdouble, hsingle, hself]
  rfl

end Lib.UrlPath
