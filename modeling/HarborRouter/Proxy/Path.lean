import HarborRouter.Lib.Text

/-!
# Names and request paths

The validators of `proxy.rs` and `discovery.rs`, the `library/` rewriting and `parse_path`, on the raw path as the
client sent it: nothing here decodes percent escapes. `parsePath_ok` says what an accepted path looks like.
-/

namespace HarborRouter
open Lib Text

/-! ## Names -/

def isSafeImageName (name : Text) : Bool :=
  name ≠ [] && !contains "..".toList name && '\\' ∉ name && !name.any isControl &&
    name.head? ≠ some '/' && name.getLast? ≠ some '/' && name == trim name

def isSafeReference (reference : Text) : Bool :=
  reference ≠ [] && '/' ∉ reference && '\\' ∉ reference && !contains "..".toList reference &&
    !reference.any isControl && reference == trim reference

def isSafeProjectName (name : Text) : Bool :=
  name ≠ [] && '/' ∉ name && '\\' ∉ name && !contains "..".toList name &&
    !name.any isControl && name == trim name

/-- Docker Hub's official images have one segment and live under `library/`. -/
def normalizeDockerLibraryImage (image : Text) : Text :=
  if '/' ∈ image then image else "library/".toList ++ image

theorem isSafeReference_iff {reference : Text} : isSafeReference reference = true ↔
    reference ≠ [] ∧ '/' ∉ reference ∧ '\\' ∉ reference ∧ ¬ "..".toList <:+: reference ∧
      (∀ c ∈ reference, isControl c = false) ∧ reference = trim reference := by
  simp only [isSafeReference, Bool.and_eq_true, decide_eq_true_eq, Bool.not_eq_true', contains_eq_false_iff,
    List.any_eq_false, Bool.not_eq_true, beq_iff_eq, and_assoc]

theorem isSafeProjectName_iff {name : Text} : isSafeProjectName name = true ↔
    name ≠ [] ∧ '/' ∉ name ∧ '\\' ∉ name ∧ ¬ "..".toList <:+: name ∧ (∀ c ∈ name, isControl c = false) ∧
      name = trim name := by
  simp only [isSafeProjectName, Bool.and_eq_true, decide_eq_true_eq, Bool.not_eq_true', contains_eq_false_iff,
    List.any_eq_false, Bool.not_eq_true, beq_iff_eq, and_assoc]

theorem isSafeImageName_iff {name : Text} : isSafeImageName name = true ↔
    name ≠ [] ∧ ¬ "..".toList <:+: name ∧ '\\' ∉ name ∧ (∀ c ∈ name, isControl c = false) ∧
      name.head? ≠ some '/' ∧ name.getLast? ≠ some '/' ∧ name = trim name := by
  simp only [isSafeImageName, Bool.and_eq_true, decide_eq_true_eq, Bool.not_eq_true', contains_eq_false_iff,
    List.any_eq_false, Bool.not_eq_true, beq_iff_eq, and_assoc]

theorem slash_mem_normalize (image : Text) : '/' ∈ normalizeDockerLibraryImage image := by
  unfold normalizeDockerLibraryImage
  split
  · simp_all
  · simp

theorem mem_normalize {image : Text} {c : Char} (hc : c ∈ normalizeDockerLibraryImage image)
    (hl : c ∉ "library/".toList) : c ∈ image := by
  unfold normalizeDockerLibraryImage at hc
  split at hc
  · exact hc
  · exact (List.mem_append.mp hc).resolve_left hl

/-! ## Paths -/

inductive PathKind
  | manifests
  | blobs
  | tags
  deriving DecidableEq, Repr

def missingPart : Text := "invalid path: missing image or reference".toList
def missingImage : Text := "invalid path: missing image name".toList
def unsafeImage : Text := "invalid image name: unsafe characters or path traversal".toList
def unsafeReference : Text := "invalid reference: unsafe characters or path traversal".toList
def unknownKind : Text := "path must contain /manifests/, /blobs/, or /tags/list".toList

/-- The image and the reference around a separator found at `idx`, checked. -/
def splitAt (path sep : Text) (kind : PathKind) (idx : Nat) : Except Text (Text × PathKind × Text) :=
  let image := path.take idx
  let reference := path.drop (idx + sep.length)
  if image = [] || reference = [] then .error missingPart
  else if !isSafeImageName image then .error unsafeImage
  else if !isSafeReference reference then .error unsafeReference
  else .ok (image, kind, reference)

/-- Parses a remainder like `grafana/grafana/manifests/latest` into image, kind and reference. -/
def parsePath (path : Text) : Except Text (Text × PathKind × Text) :=
  match stripSuffix "/tags/list".toList path with
  | some image =>
      if image = [] then .error missingImage
      else if !isSafeImageName image then .error unsafeImage
      else .ok (image, .tags, "list".toList)
  | none =>
      match rfind "/manifests/".toList path with
      | some idx => splitAt path "/manifests/".toList .manifests idx
      | none =>
          match rfind "/blobs/".toList path with
          | some idx => splitAt path "/blobs/".toList .blobs idx
          | none => .error unknownKind

def PathKind.separator : PathKind → Text
  | .manifests => "/manifests/".toList
  | .blobs => "/blobs/".toList
  | .tags => "/tags/".toList

theorem splitAt_ok {path sep image reference : Text} {kind kind' : PathKind} {idx : Nat} (hsep : sep ≠ [])
    (hidx : rfind sep path = some idx) (h : splitAt path sep kind idx = .ok (image, kind', reference)) :
    path = image ++ sep ++ reference ∧ kind' = kind ∧ isSafeImageName image = true ∧
      isSafeReference reference = true := by
  unfold splitAt at h
  dsimp only at h
  split at h
  · cases h
  split at h
  · cases h
  split at h
  · cases h
  · cases h
    exact ⟨(rfind_some hsep hidx).1, rfl, by simp_all, by simp_all⟩

/-- What `parse_path` accepts: the image, the separator of the kind and the reference, both safe. -/
theorem parsePath_ok {path image reference : Text} {kind : PathKind}
    (h : parsePath path = .ok (image, kind, reference)) :
    path = image ++ kind.separator ++ reference ∧ isSafeImageName image = true ∧
      isSafeReference reference = true ∧ (kind = .tags → reference = "list".toList) := by
  unfold parsePath at h
  split at h
  · rename_i a ha
    split at h
    · cases h
    split at h
    · cases h
    · cases h
      refine ⟨?_, by simp_all, by decide, fun _ => rfl⟩
      rw [stripSuffix_eq_some.mp ha, List.append_assoc]
      rfl
  · split at h
    · obtain ⟨hp, rfl, hi, hr⟩ := splitAt_ok (by decide) ‹_› h
      exact ⟨hp, hi, hr, nofun⟩
    · split at h
      · obtain ⟨hp, rfl, hi, hr⟩ := splitAt_ok (by decide) ‹_› h
        exact ⟨hp, hi, hr, nofun⟩
      · cases h

example : parsePath "nginx/manifests/latest".toList = .ok ("nginx".toList, .manifests, "latest".toList) := by
  decide

end HarborRouter
