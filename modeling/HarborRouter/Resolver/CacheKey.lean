import HarborRouter.Proxy.Path

/-!
# Cache keys

The three families of cache entries that requests look up, and their keys: `image:reference`, `img:image` and
`tags:image`. Images may contain `:` themselves, so the keys of two lookups can meet.

* `Overlaps` : two lookups with one key, by how their images and references are cut at a `:`;
* `key_injective_iff` : accepted lookups have keys of their own unless they overlap.
-/

namespace HarborRouter
open Lib Text

/-- The key of a manifest entry, and of its flight. -/
def cacheKey (image reference : Text) : Text := image ++ ":".toList ++ reference

/-- The key of the entry that routes the blobs of an image. -/
def imageKey (image : Text) : Text := "img:".toList ++ image

def tagsKey (image : Text) : Text := "tags:".toList ++ image

/-- What a request looks up in the cache. -/
inductive CacheLookup
  | manifest (image reference : Text)
  | image (image : Text)
  | tags (image : Text)
  deriving DecidableEq

namespace CacheLookup

def key : CacheLookup → Text
  | .manifest i r => cacheKey i r
  | .image i => imageKey i
  | .tags i => tagsKey i

/-- The lookups of accepted requests: a manifest or blob path looks up both its manifest and its image. -/
inductive Accepted : CacheLookup → Prop
  | manifest {path image reference : Text} {kind : PathKind} (hkind : kind ≠ .tags)
      (h : parsePath path = .ok (image, kind, reference)) :
      Accepted (.manifest (normalizeDockerLibraryImage image) reference)
  | image {path image reference : Text} {kind : PathKind} (hkind : kind ≠ .tags)
      (h : parsePath path = .ok (image, kind, reference)) : Accepted (.image (normalizeDockerLibraryImage image))
  | tags {path image reference : Text} (h : parsePath path = .ok (image, .tags, reference)) :
      Accepted (.tags (normalizeDockerLibraryImage image))

def name : CacheLookup → Text
  | .manifest i _ => i
  | .image i => i
  | .tags i => i

/-- The first lookup's key is the second's, cut later: its image goes on with `:` and a part of the other's rest. -/
inductive Extends : CacheLookup → CacheLookup → Prop
  | manifest (image part reference : Text) :
      Extends (.manifest (image ++ ':' :: part) reference) (.manifest image (part ++ ':' :: reference))
  | image (part reference : Text) :
      Extends (.manifest ("img:".toList ++ part) reference) (.image (part ++ ':' :: reference))
  | tags (part reference : Text) :
      Extends (.manifest ("tags:".toList ++ part) reference) (.tags (part ++ ':' :: reference))

/-- Two different lookups that share an entry. -/
def Overlaps (a b : CacheLookup) : Prop := Extends a b ∨ Extends b a

theorem Extends.key_eq {a b : CacheLookup} (h : Extends a b) : a.key = b.key := by
  cases h with
  | manifest image part reference =>
      show image ++ ':' :: part ++ [':'] ++ reference = image ++ [':'] ++ (part ++ ':' :: reference)
      simp only [List.append_assoc, List.cons_append, List.nil_append]
  | image part reference =>
      show "img:".toList ++ part ++ [':'] ++ reference = "img:".toList ++ (part ++ ':' :: reference)
      simp only [List.append_assoc, List.cons_append, List.nil_append]
  | tags part reference =>
      show "tags:".toList ++ part ++ [':'] ++ reference = "tags:".toList ++ (part ++ ':' :: reference)
      simp only [List.append_assoc, List.cons_append, List.nil_append]

theorem Extends.ne {a b : CacheLookup} (h : Extends a b) : a ≠ b := by
  cases h with
  | manifest image part reference =>
      intro he
      have := congrArg List.length (manifest.inj he).1
      simp at this
  | image part reference => nofun
  | tags part reference => nofun

/-- Only an image with a `:` overlaps another lookup. -/
theorem Extends.colon {a b : CacheLookup} (h : Extends a b) : ':' ∈ a.name := by
  cases h <;> simp [name]

theorem Accepted.slash {a : CacheLookup} (h : Accepted a) : '/' ∈ a.name := by
  cases h <;> exact slash_mem_normalize _

theorem cacheKey_eq (image reference : Text) : cacheKey image reference = image ++ ':' :: reference :=
  List.append_cons .. |>.symm

/-- A manifest's key meets a tagged key only past the tag, since the manifest's image has a `/`. -/
theorem manifest_meets {tag image reference other : Text} (htag : '/' ∉ tag) (hslash : '/' ∈ image)
    (h : image ++ ':' :: reference = tag ++ ':' :: other) :
    ∃ part, image = tag ++ ':' :: part ∧ other = part ++ ':' :: reference := by
  rcases cut_eq_cut h with ⟨rfl, -⟩ | h | ⟨s, rfl, -⟩
  · exact absurd hslash htag
  · exact h
  · exact absurd (List.mem_append_left _ hslash) htag

theorem img_noSlash : '/' ∉ "img".toList := by decide
theorem tags_noSlash : '/' ∉ "tags".toList := by decide

theorem eq_or_overlaps {a b : CacheLookup} (ha : '/' ∈ a.name) (hb : '/' ∈ b.name) (h : a.key = b.key) :
    a = b ∨ Overlaps a b := by
  cases a with
  | manifest i r =>
      cases b with
      | manifest j q =>
          simp only [key, cacheKey_eq] at h
          rcases cut_eq_cut h with ⟨rfl, rfl⟩ | ⟨s, rfl, rfl⟩ | ⟨s, rfl, rfl⟩
          · exact .inl rfl
          · exact .inr (.inl (.manifest ..))
          · exact .inr (.inr (.manifest ..))
      | image j =>
          rw [key, key, cacheKey_eq] at h
          obtain ⟨part, rfl, rfl⟩ := manifest_meets img_noSlash ha h
          exact .inr (.inl (.image ..))
      | tags j =>
          rw [key, key, cacheKey_eq] at h
          obtain ⟨part, rfl, rfl⟩ := manifest_meets tags_noSlash ha h
          exact .inr (.inl (.tags ..))
  | image i =>
      cases b with
      | manifest j q =>
          rw [key, key, cacheKey_eq] at h
          obtain ⟨part, rfl, rfl⟩ := manifest_meets img_noSlash hb h.symm
          exact .inr (.inr (.image ..))
      | image j => exact .inl (congrArg image (List.append_cancel_left h))
      | tags j => cases h
  | tags i =>
      cases b with
      | manifest j q =>
          rw [key, key, cacheKey_eq] at h
          obtain ⟨part, rfl, rfl⟩ := manifest_meets tags_noSlash hb h.symm
          exact .inr (.inr (.tags ..))
      | image j => cases h
      | tags j => exact .inl (congrArg tags (List.append_cancel_left h))

/-- Accepted lookups have keys of their own unless they overlap. -/
theorem key_injective_iff {a b : CacheLookup} (ha : Accepted a) (hb : Accepted b) :
    (a.key = b.key → a = b) ↔ ¬ Overlaps a b := by
  constructor
  · rintro hinj (h | h)
    · exact h.ne (hinj h.key_eq)
    · exact h.ne (hinj h.key_eq.symm).symm
  · intro hno h
    exact (eq_or_overlaps ha.slash hb.slash h).resolve_right hno

theorem key_injective_iff_nginx :
    (key (.manifest "library/nginx".toList "1.27".toList) = key (.image "library/nginx".toList) →
      manifest "library/nginx".toList "1.27".toList = .image "library/nginx".toList) ↔
      ¬ Overlaps (.manifest "library/nginx".toList "1.27".toList) (.image "library/nginx".toList) :=
  key_injective_iff
    (@Accepted.manifest "nginx/manifests/1.27".toList "nginx".toList _ .manifests nofun (by decide))
    (@Accepted.image "nginx/manifests/1.27".toList "nginx".toList "1.27".toList .manifests nofun (by decide))

/-- `a/b:c` at `d` and `a/b` at `c:d` share one entry and one flight. -/
theorem manifest_keys_collide : ¬ ∀ a b, Accepted a → Accepted b → a.key = b.key → a = b := by
  intro h
  have hbc : Accepted (.manifest "a/b:c".toList "d".toList) :=
    @Accepted.manifest "a/b:c/manifests/d".toList "a/b:c".toList _ .manifests nofun (by decide)
  have hb : Accepted (.manifest "a/b".toList "c:d".toList) :=
    @Accepted.manifest "a/b/manifests/c:d".toList "a/b".toList _ .manifests nofun (by decide)
  exact absurd (h _ _ hbc hb (by decide)) (by decide)

end CacheLookup
end HarborRouter
