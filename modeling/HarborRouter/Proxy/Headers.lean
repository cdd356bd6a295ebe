import HarborRouter.Lib.MultiMap
import HarborRouter.Proxy.Blob

/-!
# Forwarded headers

`copy_headers` goes through the entries of the upstream's header map, names with several values included, and inserts
the allowed ones: an insertion replaces what the name had.

* `values_copyHeaders` : the last value of each allowed name is forwarded;
* `forwards_iff` : when that is every value.
-/

namespace HarborRouter
open Lib Text MultiMap

/-- The response to a manifest or a tag list; its body is not buffered again. -/
def buildResponse (status : Nat) (upstreamHeaders : List (Text × Text)) (body : List UInt8) : Response :=
  ⟨if 100 ≤ status ∧ status < 1000 then status else 500, copyHeaders upstreamHeaders, .stream body⟩

/-- The headers are the upstream's, restricted to the allowed names. -/
def Forwards (upstream headers : List (Text × Text)) : Prop :=
  ∀ name, values headers name = if allowedResponseHeaders.contains name then values upstream name else []

theorem copyHeaders_eq (src : List (Text × Text)) :
    copyHeaders src = insertAll [] (src.filter fun h => allowedResponseHeaders.contains h.1) := by
  rw [insertAll, List.foldl_filter]
  rfl

/-- What is forwarded: the last value of each allowed name. -/
theorem values_copyHeaders (src : List (Text × Text)) (name : Text) :
    values (copyHeaders src) name =
      if allowedResponseHeaders.contains name then (values src name).getLast?.toList else [] := by
  have hempty : Single ([] : List (Text × Text)) := fun _ => Nat.zero_le 1
  rw [copyHeaders_eq, values_insertAll hempty, values_filter (fun name => allowedResponseHeaders.contains name)]
  cases allowedResponseHeaders.contains name with
  | false => rfl
  | true =>
      rw [if_pos rfl, if_pos rfl]
      cases (values src name).getLast? <;> rfl

theorem getLast_toList_eq_iff {α : Type} {l : List α} : l.getLast?.toList = l ↔ l.length ≤ 1 := by
  match l with
  | [] => exact iff_of_true rfl (Nat.zero_le 1)
  | [a] => exact iff_of_true rfl (Nat.le_refl 1)
  | a :: b :: l =>
      refine iff_of_false (fun h => ?_) (by simp)
      have hlength := congrArg List.length h
      rw [List.getLast?_cons] at hlength
      cases hlength

/-- Every value is forwarded, for all responses that copy headers, exactly when no allowed name has two. -/
theorem forwards_iff (src : List (Text × Text)) :
    (Forwards src (copyHeaders src) ↔ ∀ name ∈ allowedResponseHeaders, (values src name).length ≤ 1) ∧
      (∀ status body, Forwards src (buildResponse status src body).headers ↔
        ∀ name ∈ allowedResponseHeaders, (values src name).length ≤ 1) ∧
      ∀ (u : BlobUpstream) (project : Text) (status : Nat) (body : List UInt8), isSafeProjectName project = true →
        u.get project = .response status src body → (Forwards src (u.proxyBlob project).headers ↔
          ∀ name ∈ allowedResponseHeaders, (values src name).length ≤ 1) := by
  have hcopy : Forwards src (copyHeaders src) ↔ ∀ name ∈ allowedResponseHeaders, (values src name).length ≤ 1 := by
    refine forall_congr' fun name => ?_
    rw [values_copyHeaders, ← List.contains_iff_mem]
    cases allowedResponseHeaders.contains name with
    | false => exact iff_of_true rfl nofun
    | true =>
        rw [if_pos rfl, if_pos rfl, getLast_toList_eq_iff]
        exact ⟨fun h _ => h, fun h => h rfl⟩
  refine ⟨hcopy, fun status body => hcopy, fun u project status body hsafe hget => ?_⟩
  have hheaders : (u.proxyBlob project).headers = copyHeaders src := by
    rw [BlobUpstream.proxyBlob, hsafe, hget]
    rfl
  rw [hheaders]
  exact hcopy

theorem challenges_dropped :
    copyHeaders [("www-authenticate".toList, "Bearer".toList), ("www-authenticate".toList, "Basic".toList)] =
        [("www-authenticate".toList, "Basic".toList)] ∧
      ¬ Forwards [("www-authenticate".toList, "Bearer".toList), ("www-authenticate".toList, "Basic".toList)]
        (copyHeaders [("www-authenticate".toList, "Bearer".toList), ("www-authenticate".toList, "Basic".toList)]) := by
  refine ⟨by decide, fun h => ?_⟩
  have hvalues := h "www-authenticate".toList
  revert hvalues
  decide

end HarborRouter
