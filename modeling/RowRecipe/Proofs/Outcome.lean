import Mathlib.Data.List.Forall2

/-!
Computations that may fail: when the parts of one succeed.
-/

namespace RowRecipe.Outcome

universe u v

section Computations

variable {ε : Type} {α β : Type u}

theorem bind_eq_ok {result : Except ε α} {next : α → Except ε β} {y : β} :
    (result >>= next) = .ok y ↔ ∃ x, result = .ok x ∧ next x = .ok y := by
  cases result with
  | error e =>
      constructor
      · intro h
        cases h
      · rintro ⟨x, hx, -⟩
        cases hx
  | ok x =>
      refine ⟨fun h => ⟨x, rfl, h⟩, ?_⟩
      rintro ⟨x', hx, h⟩
      obtain rfl := Except.ok.inj hx
      exact h

theorem bind_eq_error {result : Except ε α} {next : α → Except ε β} {e : ε} :
    (result >>= next) = .error e ↔ result = .error e ∨ ∃ x, result = .ok x ∧ next x = .error e := by
  cases result with
  | error e' =>
      refine ⟨fun h => .inl (congrArg Except.error (Except.error.inj h)), ?_⟩
      rintro (h | ⟨x, hx, -⟩)
      · exact congrArg Except.error (Except.error.inj h)
      · cases hx
  | ok x =>
      refine ⟨fun h => .inr ⟨x, rfl, h⟩, ?_⟩
      rintro (h | ⟨x', hx, h⟩)
      · cases h
      · obtain rfl := Except.ok.inj hx
        exact h

theorem toOption_eq_some {result : Except ε α} {x : α} :
    result.toOption = some x ↔ result = .ok x := by
  cases result <;> simp [Except.toOption]

theorem map_eq_ok {result : Except ε α} {g : α → β} {y : β} :
    result.map g = .ok y ↔ ∃ x, result = .ok x ∧ g x = y := by
  cases result with
  | error e =>
      constructor
      · intro h
        cases h
      · rintro ⟨x, hx, -⟩
        cases hx
  | ok x =>
      refine ⟨fun h => ⟨x, rfl, Except.ok.inj h⟩, ?_⟩
      rintro ⟨x', hx, rfl⟩
      obtain rfl := Except.ok.inj hx
      rfl

theorem map_eq_error {result : Except ε α} {g : α → β} {e : ε} :
    result.map g = .error e ↔ result = .error e := by
  cases result with
  | error e' => exact ⟨fun h => congrArg Except.error (Except.error.inj h),
      fun h => congrArg Except.error (Except.error.inj h)⟩
  | ok x =>
      constructor
      · intro h
        cases h
      · intro h
        cases h

theorem mapError_eq_ok {ε' : Type} {result : Except ε α} {g : ε → ε'} {x : α} :
    result.mapError g = .ok x ↔ result = .ok x := by
  cases result with
  | error e =>
      constructor
      · intro h
        cases h
      · intro h
        cases h
  | ok x' => exact ⟨fun h => congrArg Except.ok (Except.ok.inj h),
      fun h => congrArg Except.ok (Except.ok.inj h)⟩

theorem mapM_eq_ok {f : α → Except ε β} {xs : List α} {ys : List β} :
    xs.mapM f = .ok ys ↔ List.Forall₂ (fun x y => f x = .ok y) xs ys := by
  induction xs generalizing ys with
  | nil =>
      rw [List.mapM_nil, List.forall₂_nil_left_iff]
      exact ⟨fun h => (Except.ok.inj h).symm, fun h => congrArg Except.ok h.symm⟩
  | cons x rest ih =>
      rw [List.mapM_cons, List.forall₂_cons_left_iff, bind_eq_ok]
      constructor
      · rintro ⟨y, hy, hrest⟩
        obtain ⟨more, hmore, h⟩ := bind_eq_ok.mp hrest
        exact ⟨y, more, hy, ih.mp hmore, (Except.ok.inj h).symm⟩
      · rintro ⟨y, more, hy, hmore, rfl⟩
        exact ⟨y, hy, bind_eq_ok.mpr ⟨more, ih.mpr hmore, rfl⟩⟩

/-- If computations in a row fail, one of them does. -/
theorem exists_of_mapM_eq_error {f : α → Except ε β} {xs : List α} {e : ε}
    (h : xs.mapM f = .error e) : ∃ x ∈ xs, f x = .error e := by
  induction xs with
  | nil => cases h
  | cons x rest ih =>
      rw [List.mapM_cons] at h
      rcases bind_eq_error.mp h with hx | ⟨y, -, hrest⟩
      · exact ⟨x, List.mem_cons_self, hx⟩
      · rcases bind_eq_error.mp hrest with hrest | ⟨ys, -, hdone⟩
        · obtain ⟨x', hx', hfail⟩ := ih hrest
          exact ⟨x', List.mem_cons_of_mem x hx', hfail⟩
        · cases hdone

theorem mapM_eq_some {f : α → Option β} {xs : List α} {ys : List β} :
    xs.mapM f = some ys ↔ List.Forall₂ (fun x y => f x = some y) xs ys := by
  induction xs generalizing ys with
  | nil =>
      rw [List.mapM_nil, List.forall₂_nil_left_iff]
      exact ⟨fun h => (Option.some.inj h).symm, fun h => congrArg some h.symm⟩
  | cons x rest ih =>
      rw [List.mapM_cons, List.forall₂_cons_left_iff]
      constructor
      · intro h
        obtain ⟨y, hy, hrest⟩ := Option.bind_eq_some_iff.mp h
        obtain ⟨more, hmore, hys⟩ := Option.bind_eq_some_iff.mp hrest
        exact ⟨y, more, hy, ih.mp hmore, (Option.some.inj hys).symm⟩
      · rintro ⟨y, more, hy, hmore, rfl⟩
        exact Option.bind_eq_some_iff.mpr
          ⟨y, hy, Option.bind_eq_some_iff.mpr ⟨more, ih.mpr hmore, rfl⟩⟩

end Computations

section Lists

variable {α : Type u} {β : Type v}

theorem exists_forall₂_iff {R : α → β → Prop} {xs : List α} :
    (∃ ys, List.Forall₂ R xs ys) ↔ ∀ x ∈ xs, ∃ y, R x y := by
  induction xs with
  | nil => exact ⟨fun _ => List.forall_mem_nil _, fun _ => ⟨[], .nil⟩⟩
  | cons x rest ih =>
      rw [List.forall_mem_cons, ← ih]
      constructor
      · rintro ⟨ys, hys⟩
        obtain ⟨y, more, hy, hmore, rfl⟩ := List.forall₂_cons_left_iff.mp hys
        exact ⟨⟨y, hy⟩, more, hmore⟩
      · rintro ⟨⟨y, hy⟩, more, hmore⟩
        exact ⟨y :: more, .cons hy hmore⟩

theorem forall₂_append_left {R : α → β → Prop} {xs xs' : List α} {ys : List β}
    (h : List.Forall₂ R (xs ++ xs') ys) :
    ∃ zs zs', ys = zs ++ zs' ∧ List.Forall₂ R xs zs ∧ List.Forall₂ R xs' zs' := by
  refine ⟨ys.take xs.length, ys.drop xs.length, (List.take_append_drop _ ys).symm, ?_, ?_⟩
  · have htake := List.forall₂_take xs.length h
    rwa [List.take_left] at htake
  · have hdrop := List.forall₂_drop xs.length h
    rwa [List.drop_left] at hdrop

/-- Lists that are related through a third one. -/
theorem forall₂_comp {γ : Type} {R : α → β → Prop} {S : β → γ → Prop} {xs : List α} {ys : List β}
    {zs : List γ} (h : List.Forall₂ R xs ys) (h' : List.Forall₂ S ys zs) :
    List.Forall₂ (fun x z => ∃ y, R x y ∧ S y z) xs zs := by
  induction h generalizing zs with
  | nil =>
      obtain rfl := List.forall₂_nil_left_iff.mp h'
      exact .nil
  | cons hR _ ih =>
      obtain ⟨z, more, hS, hmore, rfl⟩ := List.forall₂_cons_left_iff.mp h'
      exact .cons ⟨_, hR, hS⟩ (ih hmore)

theorem map_eq_map_of_forall₂ {γ : Type} {f : α → γ} {g : β → γ} {xs : List α} {ys : List β}
    (h : List.Forall₂ (fun x y => f x = g y) xs ys) : xs.map f = ys.map g := by
  rw [← List.forall₂_eq_eq_eq, List.forall₂_map_left_iff, List.forall₂_map_right_iff]
  exact h

/-- Every element of the second list has a partner in the first one. -/
theorem exists_mem_of_forall₂ {R : α → β → Prop} {xs : List α} {ys : List β}
    (h : List.Forall₂ R xs ys) : ∀ y ∈ ys, ∃ x ∈ xs, R x y := by
  have hmem : List.Forall₂ (fun x y => x ∈ xs ∧ R x y) xs ys :=
    (List.forall₂_and_left xs ys).mpr ⟨fun _ hx => hx, h⟩
  exact exists_forall₂_iff.mp ⟨xs, hmem.flip⟩

end Lists

end RowRecipe.Outcome
