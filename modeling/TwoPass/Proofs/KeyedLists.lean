import Mathlib.Data.List.Induction
import Mathlib.Data.List.Nodup

/-! Lists whose elements are told apart by a key. Where the keys are distinct, looking for the key
of an element finds that element. Putting elements in the places of those with their keys leaves the
keys in the order in which they first came, each once. -/

namespace TwoPass

section Distinct

variable {α : Type} [BEq α] [LawfulBEq α]

theorem eraseDups_snoc_of_mem {xs : List α} {x : α} (h : x ∈ xs) :
    (xs ++ [x]).eraseDups = xs.eraseDups := by
  have hr : [x].removeAll xs = [] := by
    simpa [List.removeAll] using h
  rw [List.eraseDups_append, hr, List.eraseDups_nil, List.append_nil]

theorem eraseDups_snoc_of_not_mem {xs : List α} {x : α} (h : x ∉ xs) :
    (xs ++ [x]).eraseDups = xs.eraseDups ++ [x] := by
  have hr : [x].removeAll xs = [x] := by
    simpa [List.removeAll] using h
  rw [List.eraseDups_append, hr]
  rfl

theorem nodup_eraseDups (xs : List α) : xs.eraseDups.Nodup := by
  induction xs using List.reverseRecOn with
  | nil => simp
  | append_singleton xs x ih =>
    by_cases h : x ∈ xs
    · rwa [eraseDups_snoc_of_mem h]
    · rw [eraseDups_snoc_of_not_mem h, List.nodup_append]
      refine ⟨ih, by simp, ?_⟩
      rintro a ha b hb rfl
      exact h (List.mem_eraseDups.1 (List.mem_singleton.1 hb ▸ ha))

theorem eraseDups_sublist (xs : List α) : xs.eraseDups.Sublist xs := by
  induction xs using List.reverseRecOn with
  | nil => simp
  | append_singleton xs x ih =>
    by_cases h : x ∈ xs
    · rw [eraseDups_snoc_of_mem h]
      exact ih.trans (List.sublist_append_left xs [x])
    · rw [eraseDups_snoc_of_not_mem h]
      exact ih.append_right [x]

theorem prefix_eraseDups (xs ys : List α) : xs.eraseDups <+: (xs ++ ys).eraseDups := by
  rw [List.eraseDups_append]
  exact List.prefix_append _ _

end Distinct

section Keys

variable {α κ : Type} {key : α → κ} {xs ys : List α} {x y : α}

theorem key_ne_of_nodup (h : ((xs ++ y :: ys).map key).Nodup) (hx : x ∈ xs) : key x ≠ key y := by
  rw [List.map_append, List.map_cons, List.nodup_append] at h
  exact h.2.2 _ (List.mem_map_of_mem hx) _ (by simp)

variable [DecidableEq κ]

theorem find?_key_of_mem (h : (xs.map key).Nodup) (hx : x ∈ xs) :
    xs.find? (key · = key x) = some x := by
  cases hf : xs.find? (key · = key x) with
  | none => simpa using List.find?_eq_none.1 hf x hx
  | some y =>
    have hy : key y = key x := by simpa using List.find?_some hf
    rw [List.inj_on_of_nodup_map h (List.mem_of_find?_eq_some hf) hx hy]

theorem find?_key_eq_some_iff (h : (xs.map key).Nodup) {k : κ} :
    xs.find? (key · = k) = some x ↔ x ∈ xs ∧ key x = k := by
  constructor
  · intro hf
    exact ⟨List.mem_of_find?_eq_some hf, by simpa using List.find?_some hf⟩
  · rintro ⟨hx, rfl⟩
    exact find?_key_of_mem h hx

end Keys

end TwoPass
