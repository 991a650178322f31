import MiniPascal.Proofs.TableRuns

/-!
# Names keep their meaning

A search finds the same item after every further run that adds nothing of the name to the blocks it
passed.
-/

namespace MiniPascal.Scope.Table

open List

variable {t : Table} {s block : Nat} {name : String} {fits : Item → Bool} {item : Item}

def foundIn? (t : Table) (s : Nat) (name : String) (fits : Item → Bool) : Option Nat :=
  (t.ancestors s).find? fun b => ((t.named b name).find? fits).isSome

/-- The blocks from one outward, up to another and without it. -/
def inside (t : Table) (s block : Nat) : List Nat := (t.ancestors s).takeWhile (· != block)

/-- An operation that puts an item of the name into one of the blocks. One that is refused does
not. -/
def adds (t : Table) (name : String) (blocks : List Nat) : Op → Bool
  | .create .. => false
  | .insert block item =>
    blocks.contains block && item.name == name && (t.perform (.insert block item)).2

/-- No operation of a run adds an item of the name to one of the blocks. -/
def spares (name : String) (blocks : List Nat) : Table → List Op → Bool
  | _, [] => true
  | t, op :: ops => !t.adds name blocks op && spares name blocks (t.perform op).1 ops

/-- A search passes the blocks inside and finds the item in the next one. -/
structure Ends (t : Table) (s : Nat) (name : String) (fits : Item → Bool) (passed : List Nat)
    (block : Nat) (item : Item) : Prop where
  start : s < t.blocks.length
  path : passed ++ [block] <+: t.ancestors s
  misses : ∀ b ∈ passed, (t.named b name).find? fits = none
  finds : (t.named block name).find? fits = some item

theorem lt_of_find? (h : t.find? s name fits = some item) : s < t.blocks.length := by
  by_contra hs
  have hnone : t.blocks[s]? = none := getElem?_eq_none (Nat.le_of_not_lt hs)
  simp [find?, ancestors, named, hnone] at h

theorem ends_of_find? (h : t.find? s name fits = some item)
    (hblock : t.foundIn? s name fits = some block) :
    t.Ends s name fits (t.inside s block) block item := by
  obtain ⟨passed, b, outer, hpath, hfinds, hmisses⟩ := findSome?_eq_some_iff.mp h
  have hb : b = block := by
    rw [foundIn?, hpath, find?_append, find?_eq_none.mpr fun c hc => by simp [hmisses c hc],
      find?_cons_of_pos (by simp [hfinds])] at hblock
    exact Option.some.inj hblock
  subst hb
  have hinside : t.inside s b = passed := by
    rw [inside, hpath, takeWhile_append_of_pos, takeWhile_cons_of_neg (by simp)]
    · exact append_nil _
    · intro c hc
      refine bne_iff_ne.mpr fun hcb => ?_
      rw [← hcb, hmisses c hc] at hfinds
      cases hfinds
  rw [hinside]
  exact ⟨lt_of_find? h, ⟨outer, by simp [hpath]⟩, hmisses, hfinds⟩

namespace Ends

variable {passed : List Nat} {op : Op}

variable (h : t.Ends s name fits passed block item)

include h

theorem find? : t.find? s name fits = some item := by
  obtain ⟨outer, hpath⟩ := h.path
  refine findSome?_eq_some_iff.mpr ⟨passed, block, outer, ?_, h.finds, h.misses⟩
  rw [← hpath, append_assoc, singleton_append]

theorem lt {b : Nat} (hb : b ∈ passed ++ [block]) : b < t.blocks.length :=
  Nat.lt_of_le_of_lt (mem_ancestors_le (h.path.subset hb)) h.start

theorem createBlock (title : String) (parent : Option Nat) (key : Position) :
    (t.createBlock title parent key).1.Ends s name fits passed block item := by
  have hprefix : t.blocks <+: (t.createBlock title parent key).1.blocks := prefix_append _ _
  refine ⟨Nat.lt_of_lt_of_le h.start hprefix.length_le, ?_, ?_, ?_⟩
  · rw [ ancestors_of_prefix hprefix h.start]
    exact h.path
  · intro b hb
    rw [ named_of_prefix hprefix (h.lt (mem_append_left _ hb))]
    exact h.misses b hb
  · rw [ named_of_prefix hprefix (h.lt (by simp))]
    exact h.finds

/-- An item goes behind those of its block, so it is found only where none was found before. -/
theorem extend {target : Nat} {new : Item} (hnew : target ∈ passed → new.name ≠ name) :
    (t.extend target [new]).Ends s name fits passed block item := by
  refine ⟨by simpa using h.start, ?_, ?_, ?_⟩
  · rw [ancestors_extend]
    exact h.path
  · intro b hb
    by_cases htarget : b = target
    · subst htarget
      rw [named_extend (h.lt (mem_append_left _ hb))]
      simpa [hnew hb] using h.misses b hb
    · rw [named_extend_of_ne htarget]
      exact h.misses b hb
  · by_cases htarget : block = target
    · subst htarget
      rw [named_extend (h.lt (by simp)), find?_append, h.finds]
      rfl
    · rw [named_extend_of_ne htarget]
      exact h.finds

theorem perform (hop : t.adds name passed op = false) :
    (t.perform op).1.Ends s name fits passed block item := by
  cases op with
  | create title parent key => exact h.createBlock title parent key
  | insert target new =>
    rw [adds, perform_insert] at hop
    rw [perform_insert]
    split
    · exact h
    · next hfresh =>
      rw [if_neg hfresh] at hop
      exact h.extend fun hmem hname => by simp [hmem, hname] at hop

theorem run {ops : List Op} (hops : spares name passed t ops = true) :
    (t.run ops).Ends s name fits passed block item := by
  induction ops generalizing t with
  | nil => exact h
  | cons op ops ih =>
    rw [spares, Bool.and_eq_true, Bool.not_eq_true'] at hops
    exact ih (h.perform hops.1) hops.2

end Ends

theorem findRoutine_eq_ok_iff {args : List Argument} :
    t.findRoutine s name args = .ok item ↔
      t.find? s name (fun i => i.kind == .routine && i.accepts args) = some item := by
  rw [findRoutine]
  split
  · next found h => simp [h]
  · next h =>
    rw [h]
    split
    · simp
    · split <;> simp

/-- What a search finds in a block it goes on to find, whatever is done to the table, as long as
nothing of the name is added to the blocks that it passes on the way. -/
theorem lookups_stable {ops : List Op} (spared : spares name (t.inside s block) t ops = true) :
    (∀ fits item, t.foundIn? s name fits = some block → t.find? s name fits = some item →
      (t.run ops).find? s name fits = some item) ∧
    (∀ item, t.foundIn? s name Item.isData = some block → t.findData? s name = some item →
      (t.run ops).findData? s name = some item) ∧
    (∀ item, t.foundIn? s name (fun i => i.kind == .result) = some block →
      t.findResult? s name = some item → (t.run ops).findResult? s name = some item) ∧
    ∀ args item, t.foundIn? s name (fun i => i.kind == .routine && i.accepts args) = some block →
      t.findRoutine s name args = .ok item → (t.run ops).findRoutine s name args = .ok item := by
  have hfind : ∀ fits item, t.foundIn? s name fits = some block →
      t.find? s name fits = some item → (t.run ops).find? s name fits = some item :=
    fun fits item hblock h => ((ends_of_find? h hblock).run spared).find?
  refine ⟨hfind, fun item => hfind _ item, fun item => hfind _ item, ?_⟩
  intro args item hblock h
  exact findRoutine_eq_ok_iff.mpr (hfind _ item hblock (findRoutine_eq_ok_iff.mp h))

/-- A procedure inside hides nothing from a search for data, and a variable that it refuses does
not either. -/
theorem lookups_stable_refused :
    let x : Item := { name := "x", type := .int, kind := .var, position := ⟨1, 5⟩ }
    let t := Table.run {} [.create "p" none ⟨1, 1⟩, .insert 0 x, .create "q" (some 0) ⟨2, 1⟩,
      .insert 1 { x with kind := .routine, type := .void }]
    let ops := [.insert 1 { x with type := .real }, .create "r" (some 1) ⟨3, 1⟩, .insert 2 x,
      .insert 1 { x with name := "y" }, .insert 0 { x with params := [⟨.int, false⟩] }]
    spares "x" (t.inside 1 0) t ops = true ∧ t.foundIn? 1 "x" Item.isData = some 0 ∧
      (t.run ops).findData? 1 "x" = some x := by
  intro x t ops
  have hspared : spares "x" (t.inside 1 0) t ops = true := by decide +kernel
  have hfound : t.foundIn? 1 "x" Item.isData = some 0 := by decide +kernel
  exact ⟨hspared, hfound, (lookups_stable hspared).2.1 x hfound (by decide +kernel)⟩

end MiniPascal.Scope.Table
