import Mathlib.Data.List.Forall2
/-!
# Fallible — computations that can fail, and passes of them over lists

A pass over a list succeeds when every item does, and then it holds what was made of the items, one for one and in order
(`mapM_eq_some_iff`, `mapM_eq_ok_iff`).
-/
namespace LayoutLint

variable {α β ε : Type}

/-- A computation that is seen to succeed. -/
theorem exists_ok_of_any {e : Except ε α} {p : α → Bool} (h : e.toOption.any p = true) :
    ∃ a, e = .ok a ∧ p a = true := by
  cases e with
  | error _ => cases h
  | ok a => exact ⟨a, rfl, h⟩

/-! ### Items that stand beside each other -/

theorem exists_of_mem_right {R : α → β → Prop} {l : List α} {l' : List β} (h : List.Forall₂ R l l') :
    ∀ b ∈ l', ∃ a ∈ l, R a b := by
  induction h with
  | nil => exact fun b hb => absurd hb List.not_mem_nil
  | @cons a b l l' hab _ ih =>
    intro b' hb
    rcases List.mem_cons.1 hb with rfl | hb
    · exact ⟨a, List.mem_cons_self, hab⟩
    · obtain ⟨a', ha, hab'⟩ := ih b' hb
      exact ⟨a', List.mem_cons_of_mem _ ha, hab'⟩

theorem exists_of_mem_left {R : α → β → Prop} {l : List α} {l' : List β} (h : List.Forall₂ R l l') :
    ∀ a ∈ l, ∃ b ∈ l', R a b :=
  exists_of_mem_right h.flip

theorem exists_forall₂ {R : α → β → Prop} {l : List α} (h : ∀ a ∈ l, ∃ b, R a b) : ∃ l', List.Forall₂ R l l' := by
  induction l with
  | nil => exact ⟨[], .nil⟩
  | cons a l ih =>
    obtain ⟨b, hb⟩ := h a List.mem_cons_self
    obtain ⟨l', hl⟩ := ih fun x hx => h x (List.mem_cons_of_mem _ hx)
    exact ⟨b :: l', .cons hb hl⟩

/-! ### Searches that may find nothing -/

theorem mapM_eq_some_iff {f : α → Option β} {l : List α} {l' : List β} :
    l.mapM f = some l' ↔ List.Forall₂ (fun a b => f a = some b) l l' := by
  induction l generalizing l' with
  | nil => rw [List.mapM_nil, List.forall₂_nil_left_iff, Option.pure_def, Option.some.injEq, eq_comm]
  | cons a l ih =>
    simp only [List.mapM_cons, Option.bind_eq_bind, Option.bind_eq_some_iff, Option.pure_def, Option.some.injEq, ih,
      List.forall₂_cons_left_iff]
    constructor
    · rintro ⟨b, hb, bs, hbs, rfl⟩
      exact ⟨b, bs, hb, hbs, rfl⟩
    · rintro ⟨b, bs, hb, hbs, rfl⟩
      exact ⟨b, hb, bs, hbs, rfl⟩

/-- A search finds nothing for a list exactly when it finds nothing for one of its items. -/
theorem mapM_eq_none_iff {f : α → Option β} {l : List α} : l.mapM f = none ↔ ∃ a ∈ l, f a = none := by
  constructor
  · intro h
    refine not_forall_not.1 fun hall => ?_
    obtain ⟨l', hl⟩ := exists_forall₂ (R := fun a b => f a = some b) fun a ha =>
      Option.ne_none_iff_exists'.1 fun hnone => hall a ⟨ha, hnone⟩
    rw [mapM_eq_some_iff.2 hl] at h
    cases h
  · rintro ⟨a, ha, hnone⟩
    cases hl : l.mapM f with
    | none => rfl
    | some l' =>
      obtain ⟨b, -, hb⟩ := exists_of_mem_left (mapM_eq_some_iff.1 hl) a ha
      rw [hnone] at hb
      cases hb

/-! ### Computations that may raise an error -/

/-- One computation after another succeeds when both do. -/
theorem bind_eq_ok_iff {e : Except ε α} {f : α → Except ε β} {b : β} :
    (e >>= f) = .ok b ↔ ∃ a, e = .ok a ∧ f a = .ok b := by
  cases e with
  | error _ => exact ⟨(fun h => nomatch h), (fun ⟨_, h, _⟩ => nomatch h)⟩
  | ok a => exact ⟨fun h => ⟨a, rfl, h⟩, fun ⟨_, h, hf⟩ => Except.ok.inj h ▸ hf⟩

theorem map_eq_ok_iff {e : Except ε α} {f : α → β} {b : β} : f <$> e = .ok b ↔ ∃ a, e = .ok a ∧ f a = b := by
  cases e with
  | error _ => exact ⟨(fun h => nomatch h), (fun ⟨_, h, _⟩ => nomatch h)⟩
  | ok a => exact ⟨fun h => ⟨a, rfl, Except.ok.inj h⟩, fun ⟨_, h, hf⟩ => congrArg Except.ok (Except.ok.inj h ▸ hf)⟩

theorem mapM_eq_ok_iff {f : α → Except ε β} {l : List α} {l' : List β} :
    l.mapM f = .ok l' ↔ List.Forall₂ (fun a b => f a = .ok b) l l' := by
  induction l generalizing l' with
  | nil =>
    rw [List.mapM_nil, List.forall₂_nil_left_iff]
    exact ⟨fun h => (Except.ok.inj h).symm, fun h => h ▸ rfl⟩
  | cons a l ih =>
    simp only [List.mapM_cons, bind_eq_ok_iff, ih, List.forall₂_cons_left_iff]
    constructor
    · rintro ⟨b, hb, bs, hbs, h⟩
      exact ⟨b, bs, hb, hbs, (Except.ok.inj h).symm⟩
    · rintro ⟨b, bs, hb, hbs, rfl⟩
      exact ⟨b, hb, bs, hbs, rfl⟩

end LayoutLint
