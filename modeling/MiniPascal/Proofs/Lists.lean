import Mathlib.Data.List.Forall2

/-!
# Lists that correspond

What a relation between the elements of two lists, one by one, says about the members of each.
-/

namespace MiniPascal

open List

variable {α β γ δ κ : Type} {R S : α → β → Prop} {P : α → Prop} {as : List α} {bs : List β}

theorem exists_pair_of_mem (h : Forall₂ R as bs) {a : α} (ha : a ∈ as) :
    ∃ b, (a, b) ∈ as.zip bs ∧ R a b := by
  induction h with
  | nil => cases ha
  | @cons a' b as bs hab _ ih =>
    rcases mem_cons.mp ha with rfl | ha
    · exact ⟨b, mem_cons_self, hab⟩
    · obtain ⟨b', hb', hR⟩ := ih ha
      exact ⟨b', mem_cons_of_mem _ hb', hR⟩

theorem exists_left_of_mem (h : Forall₂ R as bs) {b : β} (hb : b ∈ bs) : ∃ a ∈ as, R a b := by
  obtain ⟨a, hzip, hab⟩ := exists_pair_of_mem h.flip hb
  exact ⟨a, (of_mem_zip hzip).2, hab⟩

theorem exists_source {T : α → γ → Prop} {cs : List γ} (hR : Forall₂ R as bs)
    (hT : Forall₂ T as cs) {b : β} {c : γ} (hmem : (b, c) ∈ bs.zip cs) :
    ∃ a ∈ as, R a b ∧ T a c := by
  induction hR generalizing cs with
  | nil => cases hmem
  | @cons a b' as bs hab _ ih =>
    cases hT with
    | @cons _ c' _ cs hac hrest =>
      rcases mem_cons.mp hmem with heq | hmem
      · cases heq
        exact ⟨a, mem_cons_self, hab, hac⟩
      · obtain ⟨a', ha', h⟩ := ih hrest hmem
        exact ⟨a', mem_cons_of_mem _ ha', h⟩

theorem exists_pairs (h : Forall₂ R as bs) :
    ∃ l : List (α × β), as = l.map Prod.fst ∧ bs = l.map Prod.snd ∧ ∀ x ∈ l, R x.1 x.2 := by
  induction h with
  | nil => exact ⟨[], rfl, rfl, nofun⟩
  | @cons a b _ _ hab _ ih =>
    obtain ⟨l, rfl, rfl, hl⟩ := ih
    exact ⟨(a, b) :: l, rfl, rfl, forall_mem_cons.mpr ⟨hab, hl⟩⟩

theorem forall_right {Q : β → Prop} (h : Forall₂ (fun a b => R a b ∧ Q b) as bs) :
    ∀ b ∈ bs, Q b := by
  intro b hb
  obtain ⟨_, _, _, hQ⟩ := exists_left_of_mem h hb
  exact hQ

theorem forall₂_imp_of_mem (h : Forall₂ R as bs)
    (hS : ∀ a ∈ as, ∀ b ∈ bs, R a b → S a b) : Forall₂ S as bs := by
  induction h with
  | nil => exact .nil
  | cons hab _ ih =>
    exact .cons (hS _ mem_cons_self _ mem_cons_self hab)
      (ih fun a ha b hb => hS a (mem_cons_of_mem _ ha) b (mem_cons_of_mem _ hb))

theorem forall₂_iff_of_forall₂ (h : Forall₂ R as bs) (hiff : ∀ a b, R a b → (S a b ↔ P a)) :
    Forall₂ S as bs ↔ ∀ a ∈ as, P a := by
  induction h with
  | nil => simp
  | cons hab _ ih => rw [forall₂_cons, forall_mem_cons, hiff _ _ hab, ih]

theorem eq_map_of_lookups {f : α → Option β} {g : γ → β} {cs : List γ}
    (hbs : Forall₂ (fun a b => f a = some b) as bs)
    (hcs : Forall₂ (fun a c => f a = some (g c)) as cs) : bs = cs.map g := by
  induction hbs generalizing cs with
  | nil =>
    cases hcs
    rfl
  | cons hb _ ih =>
    cases hcs with
    | cons hc hcs =>
      rw [hb] at hc
      rw [map_cons, ← ih hcs, Option.some.inj hc]

theorem forall_mem_zipWith {f : α → β → γ} {Q : γ → Prop} (h : ∀ a ∈ as, ∀ b, Q (f a b)) :
    ∀ c ∈ as.zipWith f bs, Q c := by
  rw [← map_uncurry_zip_eq_zipWith]
  exact forall_mem_map.mpr fun x hx => h x.1 (of_mem_zip hx).1 x.2

theorem forall₂_zipWith {T : γ → δ → Prop} {f : α → κ → γ} {g : β → κ → δ} (h : Forall₂ R as bs)
    (hfg : ∀ a b c, R a b → T (f a c) (g b c)) (cs : List κ) :
    Forall₂ T (as.zipWith f cs) (bs.zipWith g cs) := by
  induction h generalizing cs with
  | nil => exact .nil
  | cons hab _ ih =>
    cases cs with
    | nil => exact .nil
    | cons c cs => exact .cons (hfg _ _ c hab) (ih cs)

end MiniPascal
