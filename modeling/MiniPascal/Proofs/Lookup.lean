import MiniPascal.Scope.Lookup

/-!
# What a lookup finds

A lookup finds an item of the name that fits, in the block or in one around it.
-/

namespace MiniPascal.Scope

open List

namespace Table

variable {t : Table} {id : Nat} {name : String} {fits : Item → Bool} {item : Item}

/-- An item of a block or of one around it. -/
def Visible (t : Table) (id : Nat) (item : Item) : Prop :=
  ∃ block ∈ t.ancestors id, ∃ b, t.blocks[block]? = some b ∧ item ∈ b.items

theorem mem_named {block : Nat} (h : item ∈ t.named block name) :
    item.name = name ∧ ∃ b, t.blocks[block]? = some b ∧ item ∈ b.items := by
  unfold named at h
  split at h
  · next b hb =>
    obtain ⟨hm, hn⟩ := mem_filter.mp h
    exact ⟨beq_iff_eq.mp hn, b, hb, hm⟩
  · cases h

theorem find?_some (h : t.find? id name fits = some item) :
    fits item = true ∧ item.name = name ∧ t.Visible id item := by
  obtain ⟨block, hblock, hf⟩ := exists_of_findSome?_eq_some h
  obtain ⟨hn, b, hb, hm⟩ := mem_named (mem_of_find?_eq_some hf)
  exact ⟨List.find?_some hf, hn, block, hblock, b, hb, hm⟩

theorem findData?_some (h : t.findData? id name = some item) :
    item.isData = true ∧ item.name = name ∧ t.Visible id item :=
  find?_some h

theorem findResult?_some (h : t.findResult? id name = some item) :
    item.kind = .result ∧ item.name = name ∧ t.Visible id item := by
  obtain ⟨hk, hn, hv⟩ := find?_some h
  exact ⟨beq_iff_eq.mp hk, hn, hv⟩

theorem findPlace?_some (h : t.findPlace? id name = some item) :
    (t.findData? id name = some item ∧ item.isData = true) ∨
    (t.findData? id name = none ∧ t.findResult? id name = some item ∧ item.kind = .result) := by
  unfold findPlace? at h
  cases hd : t.findData? id name with
  | some i =>
    rw [hd] at h
    cases h
    exact .inl ⟨rfl, (findData?_some hd).1⟩
  | none =>
    rw [hd] at h
    exact .inr ⟨rfl, h, (findResult?_some h).1⟩

theorem findPlace?_of_findData? (h : t.findData? id name = some item) :
    t.findPlace? id name = some item := by
  rw [findPlace?, h]
  rfl

theorem findPlace?_name (h : t.findPlace? id name = some item) : item.name = name := by
  rcases findPlace?_some h with ⟨hd, _⟩ | ⟨_, hr, _⟩
  · exact (findData?_some hd).2.1
  · exact (findResult?_some hr).2.1

theorem findPlace?_visible (h : t.findPlace? id name = some item) : t.Visible id item := by
  rcases findPlace?_some h with ⟨hd, _⟩ | ⟨_, hr, _⟩
  · exact (findData?_some hd).2.2
  · exact (findResult?_some hr).2.2

theorem findRoutine_ok {args : List Argument} (h : t.findRoutine id name args = .ok item) :
    item.kind = .routine ∧ item.accepts args = true ∧ item.name = name ∧ t.Visible id item := by
  unfold findRoutine at h
  split at h
  · next i hi =>
    cases h
    obtain ⟨hf, hn, hv⟩ := find?_some hi
    simp only [Bool.and_eq_true, beq_iff_eq] at hf
    exact ⟨hf.1, hf.2, hn, hv⟩
  · split at h
    · cases h
    · split at h <;> cases h

theorem resolve_ok (h : t.resolve id name = .ok item) :
    (item.kind = .routine ∧ t.findRoutine id name [] = .ok item) ∨
    (item.kind ≠ .routine ∧ t.findPlace? id name = some item) := by
  unfold resolve at h
  unfold findPlace?
  split at h
  · next i hi =>
    cases h
    refine .inr ⟨?_, by rw [hi]; rfl⟩
    intro hk
    have hd := (findData?_some hi).1
    rw [Item.isData, hk] at hd
    cases hd
  · next hd =>
    split at h
    · next i hi =>
      cases h
      exact .inl ⟨(findRoutine_ok hi).1, hi⟩
    · split at h
      · next i hi =>
        cases h
        refine .inr ⟨?_, by rw [hd]; exact hi⟩
        rw [(findResult?_some hi).1]
        decide
      · cases h

theorem resolve_of_findData? (h : t.findData? id name = some item) :
    t.resolve id name = .ok item := by
  rw [resolve, h]

theorem findData?_of_resolve (h : t.resolve id name = .ok item) (hk : item.kind = .const) :
    t.findData? id name = some item := by
  rcases resolve_ok h with ⟨hr, _⟩ | ⟨_, hp⟩
  · rw [hk] at hr
    cases hr
  · rcases findPlace?_some hp with ⟨hd, _⟩ | ⟨_, _, hr⟩
    · exact hd
    · rw [hk] at hr
      cases hr

theorem resolve_visible (h : t.resolve id name = .ok item) : t.Visible id item := by
  rcases resolve_ok h with ⟨_, hr⟩ | ⟨_, hp⟩
  · exact (findRoutine_ok hr).2.2.2
  · exact findPlace?_visible hp

end Table

theorem Item.accepts_iff {item : Item} {args : List Argument} : item.accepts args = true ↔
      item.params.length = args.length ∧ ∀ pa ∈ item.params.zip args, pa.1.accepts pa.2 = true := by
  simp only [accepts, Bool.and_eq_true, beq_iff_eq, all_eq_true]

end MiniPascal.Scope
