import Mathlib.Data.List.Forall2

/-! Answers that may be faults, and lists mapped by a function that may fail. The answer for a list
is all results in order, or the fault of the first element that has none. -/

namespace TwoPass

variable {α β γ ε : Type}

theorem map_eq_ok_iff {f : α → β} {r : Except ε α} {y : β} :
    r.map f = .ok y ↔ ∃ x, r = .ok x ∧ y = f x := by
  cases r <;> simp [Except.map, eq_comm]

theorem map_eq_error_iff {f : α → β} {r : Except ε α} {e : ε} :
    r.map f = .error e ↔ r = .error e := by
  cases r <;> simp [Except.map]

theorem ok_bind (x : α) (f : α → Except ε β) : (Except.ok x >>= f) = f x :=
  rfl

theorem pure_eq_ok (x : α) : (pure x : Except ε α) = .ok x :=
  rfl

theorem bind_eq_ok_iff {r : Except ε α} {f : α → Except ε β} {y : β} :
    r >>= f = .ok y ↔ ∃ x, r = .ok x ∧ f x = .ok y := by
  cases r <;> simp [bind, Except.bind]

section Settled

variable {r : Except ε α} {P : α → Prop} {Q : ε → Prop}

/-- Conditions of which each settles an answer, and of which one always holds, are all that the
answer can come from. -/
theorem eq_ok_iff_of_settled (hok : ∀ x, P x → r = .ok x) (herror : ∀ e, Q e → r = .error e)
    (hor : (∃ x, P x) ∨ ∃ e, Q e) {x : α} : r = .ok x ↔ P x := by
  refine ⟨fun h => ?_, hok x⟩
  rcases hor with ⟨y, hy⟩ | ⟨e, he⟩
  · rwa [← Except.ok.inj ((hok y hy).symm.trans h)]
  · cases (herror e he).symm.trans h

theorem eq_error_iff_of_settled (hok : ∀ x, P x → r = .ok x)
    (herror : ∀ e, Q e → r = .error e) (hor : (∃ x, P x) ∨ ∃ e, Q e) {e : ε} :
    r = .error e ↔ Q e := by
  refine ⟨fun h => ?_, herror e⟩
  rcases hor with ⟨x, hx⟩ | ⟨d, hd⟩
  · cases (hok x hx).symm.trans h
  · rwa [← Except.error.inj ((herror d hd).symm.trans h)]

end Settled

/-- When results are recognised by a key, the answer is recognised by its keys. -/
theorem mapM_eq_ok_iff {f : α → Except ε β} {key : β → γ} {image : α → γ}
    (hf : ∀ x y, f x = .ok y ↔ key y = image x) {xs : List α} {ys : List β} :
    xs.mapM f = .ok ys ↔ ys.map key = xs.map image := by
  induction xs generalizing ys with
  | nil => cases ys <;> simp [pure, Except.pure]
  | cons x xs ih =>
    rw [List.mapM_cons]
    cases hx : f x with
    | error e =>
      have hne : ∀ y, key y ≠ image x := fun y hy => by
        have hy' := (hf x y).2 hy
        rw [hx] at hy'
        cases hy'
      cases ys <;> simp [bind, Except.bind, hne]
    | ok z =>
      cases hr : xs.mapM f with
      | error e =>
        cases ys with
        | nil => simp [bind, Except.bind]
        | cons y ys =>
          have hne : ys.map key ≠ xs.map image := fun h => by
            have h' := ih.2 h
            rw [hr] at h'
            cases h'
          simp [bind, Except.bind, hne]
      | ok zs =>
        cases ys with
        | nil => simp [bind, Except.bind, pure, Except.pure]
        | cons y ys =>
          have hz : z = y ↔ key y = image x := by rw [← hf, hx, Except.ok.injEq]
          have hzs : zs = ys ↔ ys.map key = xs.map image := by rw [← ih, hr, Except.ok.injEq]
          simp [bind, Except.bind, pure, Except.pure, hz, hzs]

theorem mapM_eq_error {f : α → Except ε β} {fails : α → Bool} {fault : α → ε}
    (hok : ∀ x, fails x = false → ∃ y, f x = .ok y)
    (herror : ∀ x, fails x = true → f x = .error (fault x)) {xs : List α} {x : α}
    (h : xs.find? fails = some x) : xs.mapM f = .error (fault x) := by
  induction xs with
  | nil => simp at h
  | cons z zs ih =>
    rw [List.mapM_cons]
    cases hz : fails z with
    | true =>
      rw [List.find?_cons_of_pos hz, Option.some.injEq] at h
      rw [herror z hz, h]
      rfl
    | false =>
      obtain ⟨y, hy⟩ := hok z hz
      rw [List.find?_cons_of_neg (by simp [hz])] at h
      rw [hy, ih h]
      rfl

theorem mapM_eq_error_iff {f : α → Except ε β} {xs : List α} {e : ε} :
    xs.mapM f = .error e ↔
      ∃ before x after, xs = before ++ x :: after ∧ (∀ z ∈ before, ∃ y, f z = .ok y) ∧
        f x = .error e := by
  induction xs with
  | nil => simp [pure, Except.pure]
  | cons z zs ih =>
    rw [List.mapM_cons]
    cases hz : f z with
    | error d =>
      constructor
      · intro h
        obtain rfl : d = e := by simpa [bind, Except.bind] using h
        exact ⟨[], z, zs, rfl, by simp, hz⟩
      · rintro ⟨before, x, after, hxs, hbefore, hx⟩
        -- nothing can stand in front of the first fault
        cases before with
        | nil =>
          obtain ⟨rfl, -⟩ := List.cons.inj hxs
          rw [← hz, hx]
          rfl
        | cons b bs =>
          obtain ⟨rfl, -⟩ := List.cons.inj hxs
          obtain ⟨y, hy⟩ := hbefore z (by simp)
          rw [hz] at hy
          cases hy
    | ok y =>
      have hlater : (do let ys ← zs.mapM f; pure (y :: ys)) = .error e ↔ zs.mapM f = .error e := by
        cases zs.mapM f <;> simp [bind, Except.bind, pure, Except.pure]
      refine hlater.trans (ih.trans ?_)
      constructor
      · rintro ⟨before, x, after, rfl, hbefore, hx⟩
        refine ⟨z :: before, x, after, rfl, fun k hk => ?_, hx⟩
        rcases List.mem_cons.1 hk with rfl | hk
        · exact ⟨y, hz⟩
        · exact hbefore k hk
      · rintro ⟨before, x, after, hxs, hbefore, hx⟩
        cases before with
        | nil =>
          obtain ⟨rfl, -⟩ := List.cons.inj hxs
          rw [hz] at hx
          cases hx
        | cons b bs =>
          obtain ⟨-, rfl⟩ := List.cons.inj hxs
          exact ⟨bs, x, after, rfl, fun k hk => hbefore k (by simp [hk]), hx⟩

theorem mapM_eq_ok_iff_map {f : α → Except ε β} {xs : List α} {ys : List β} :
    xs.mapM f = .ok ys ↔ xs.map f = ys.map .ok :=
  (mapM_eq_ok_iff fun _ _ => eq_comm).trans eq_comm

theorem mapM_eq_ok_iff_forall₂ {f : α → Except ε β} {xs : List α} {ys : List β} :
    xs.mapM f = .ok ys ↔ List.Forall₂ (fun x y => f x = .ok y) xs ys := by
  rw [mapM_eq_ok_iff_map, ← List.forall₂_eq_eq_eq, List.forall₂_map_left_iff,
    List.forall₂_map_right_iff]

theorem exists_mapM_eq_ok_iff {f : α → Except ε β} {xs : List α} :
    (∃ ys, xs.mapM f = .ok ys) ↔ ∀ x ∈ xs, ∃ y, f x = .ok y := by
  constructor
  · rintro ⟨ys, h⟩ x hx
    have hmem : f x ∈ ys.map Except.ok := by
      rw [← mapM_eq_ok_iff_map.1 h]
      exact List.mem_map_of_mem hx
    obtain ⟨y, -, hy⟩ := List.mem_map.1 hmem
    exact ⟨y, hy.symm⟩
  · intro h
    cases hr : xs.mapM f with
    | ok ys => exact ⟨ys, rfl⟩
    | error e =>
      obtain ⟨before, x, after, hxs, -, hx⟩ := mapM_eq_error_iff.1 hr
      obtain ⟨y, hy⟩ := h x (by simp [hxs])
      rw [hx] at hy
      cases hy

theorem foldlM_eq_error_iff {f : β → α → Except ε β} {s : β} {xs : List α} {e : ε} :
    xs.foldlM f s = .error e ↔
      ∃ before x after t, xs = before ++ x :: after ∧ before.foldlM f s = .ok t ∧
        f t x = .error e := by
  constructor
  · intro h
    induction xs generalizing s with
    | nil => cases h
    | cons z zs ih =>
      rw [List.foldlM_cons] at h
      cases hz : f s z with
      | error d =>
        rw [hz] at h
        exact ⟨[], z, zs, s, rfl, rfl, hz.trans h⟩
      | ok u =>
        rw [hz] at h
        obtain ⟨before, x, after, t, rfl, hbefore, hx⟩ := ih h
        refine ⟨z :: before, x, after, t, rfl, ?_, hx⟩
        rw [List.foldlM_cons, hz]
        exact hbefore
  · rintro ⟨before, x, after, t, rfl, hbefore, hx⟩
    rw [List.foldlM_append, hbefore]
    change (f t x >>= fun u => after.foldlM f u) = _
    rw [hx]
    rfl

theorem mapM_map_eq_pure {m : Type → Type} [Monad m] [LawfulMonad m] {f : β → m α} {g : α → β}
    {xs : List α} (h : ∀ x ∈ xs, f (g x) = pure x) : (xs.map g).mapM f = pure xs := by
  induction xs with
  | nil => rfl
  | cons x xs ih =>
    have hx := h x (by simp)
    have hxs := ih fun y hy => h y (by simp [hy])
    rw [List.map_cons, List.mapM_cons, hx, pure_bind, hxs, pure_bind]

theorem mapM_eq_some_iff {f : α → Option β} {xs : List α} {ys : List β} :
    xs.mapM f = some ys ↔ List.Forall₂ (fun x y => f x = some y) xs ys := by
  induction xs generalizing ys with
  | nil => cases ys <;> simp
  | cons x xs ih =>
    rw [List.mapM_cons]
    cases hx : f x with
    | none => cases ys <;> simp [hx]
    | some z =>
      cases hr : xs.mapM f with
      | none =>
        have hne : ∀ {zs : List β}, ¬ List.Forall₂ (fun x y => f x = some y) xs zs := fun h => by
          have hsome := ih.2 h
          rw [hr] at hsome
          cases hsome
        cases ys <;> simp [hx, hne]
      | some zs =>
        cases ys with
        | nil => simp
        | cons y ys => simp [hx, ← ih, hr]

end TwoPass
