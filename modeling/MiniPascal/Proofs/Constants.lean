import MiniPascal.Proofs.Initializers

/-!
# The constants of a block

A constant in C has to be a literal of the value that its initializer had where it was declared.
Lowering looks the initializer up again, in the finished table, where it may be captured by a later
declaration.
-/

namespace MiniPascal

open Scope Analysis Typing List
open Run (Datum)

def Expr.isAmong (names : List String) : Expr → Bool
  | .name _ n => names.contains n
  | _ => false

/-- Whether an initializer is a name that is declared with its constant or after it, be it by the
later constants or among the names that follow them. -/
def capturesAny (following : List String) : List ConstDecl → Bool
  | [] => false
  | d :: ds => d.value.isAmong (d.name :: ds.map ConstDecl.name ++ following) ||
      capturesAny following ds

namespace C

/-- Constants in C that keep those of a block: each is a literal of the value that its initializer
has where it is declared, after the constants before it, and has the type that the table records. -/
inductive Kept (final : Table) (block : Nat) :
    Table → Run.Store → List ConstDecl → List Constant → Run.Store → Prop where
  | nil (t : Table) (σ : Run.Store) : Kept final block t σ [] [] σ
  | cons {t : Table} {σ σ' : Run.Store} {d : ConstDecl} {ds : List ConstDecl} {c : Constant}
      {cs : List Constant} {v : Datum} (name : c.name = d.name)
      (value : Run.eval t block σ d.value = .ok v) (denotes : c.value.Denotes v)
      (declared : final.Visible block (constItem t block d))
      (type : Ty.ofBase (constItem t block d).type.base d.position = .ok c.type)
      (rest : Kept final block (t.extend block [constItem t block d])
        (σ.assign (constItem t block d) v) ds cs σ') :
      Kept final block t σ (d :: ds) (c :: cs) σ'

section

variable {env : Env} {known known' : Constants} {σ : Run.Store} {t : Table} {block : Nat}
  {ds : List ConstDecl} {cs : List Constant}

theorem lowerConsts_cons {d : ConstDecl} : lowerConsts env known (d :: ds) = .ok (cs, known') ↔
      ∃ value type rest, constantValue env known d.value = .ok value ∧
        Ty.ofBase (env.typeOf d.value).base d.position = .ok type ∧
        lowerConsts env ((d.position, value) :: known) ds = .ok (rest, known') ∧
        cs = ⟨d.name, type, value⟩ :: rest := by
  constructor
  · intro h
    obtain ⟨value, hvalue, type, htype, h⟩ := Except.bind₂_eq_ok.mp h
    obtain ⟨⟨rest, known⟩, hrest, h⟩ := Except.bind_eq_ok.mp h
    cases h
    exact ⟨value, type, rest, hvalue, htype, hrest, rfl⟩
  · rintro ⟨value, type, rest, hvalue, htype, hrest, rfl⟩
    exact Except.bind_eq_ok.mpr ⟨value, hvalue, Except.bind_eq_ok.mpr ⟨type, htype,
      Except.bind_eq_ok.mpr ⟨(rest, known'), hrest, rfl⟩⟩⟩

variable {later items : List Item} {q p : Position} {n : String}

theorem lookup_cons_of_ne {q' : Position} (h : q ≠ q') (c : Expr) (known : Constants) :
    List.lookup q ((q', c) :: known) = known.lookup q := by
  rw [lookup_cons, beq_eq_false_iff_ne.mpr h]

theorem lookup_lowerConsts (h : lowerConsts env known ds = .ok (cs, known'))
    (hq : q ∉ ds.map ConstDecl.position) : known'.lookup q = known.lookup q := by
  induction ds generalizing known cs with
  | nil =>
    cases h
    rfl
  | cons d ds ih =>
    obtain ⟨hd, hq⟩ := not_or.mp (mem_cons.not.mp hq)
    obtain ⟨value, type, rest, _, _, hrest, _⟩ := lowerConsts_cons.mp h
    rw [ih hrest hq, lookup_cons_of_ne hd]

/-- Places that all differ and are not on record yet. -/
structure Fresh (known : Constants) (places : List Position) : Prop where
  nodup : places.Nodup
  absent : ∀ q ∈ places, known.lookup q = none

theorem Fresh.sublist {places places' : List Position} (fresh : Fresh known places)
    (h : places'.Sublist places) : Fresh known places' :=
  ⟨h.nodup fresh.nodup, fun q hq => fresh.absent q (h.subset hq)⟩

theorem Fresh.tail {places : List Position} (fresh : Fresh known (q :: places)) (c : Expr) :
    Fresh ((q, c) :: known) places := by
  obtain ⟨hnew, hnodup⟩ := nodup_cons.mp fresh.nodup
  refine ⟨hnodup, fun q' hq => ?_⟩
  rw [lookup_cons_of_ne (ne_of_mem_of_not_mem hq hnew)]
  exact fresh.absent q' (mem_cons_of_mem _ hq)

theorem Fresh.lowerConsts {places : List Position}
    (fresh : Fresh known (ds.map ConstDecl.position ++ places))
    (h : C.lowerConsts env known ds = .ok (cs, known')) : Fresh known' places := by
  obtain ⟨_, hnodup, hdisjoint⟩ := nodup_append.mp fresh.nodup
  refine ⟨hnodup, fun q hq => ?_⟩
  rw [lookup_lowerConsts h fun hmem => hdisjoint q hmem q hq rfl]
  exact fresh.absent q (mem_append_right _ hq)

variable {item : Item}

theorem Constants.Records.lowerConsts (h : known.Records σ item)
    (fresh : Fresh known (ds.map ConstDecl.position))
    (hcs : C.lowerConsts env known ds = .ok (cs, known')) : known'.Records σ item := by
  obtain ⟨hdims, c, hc, hcv⟩ := h
  refine ⟨hdims, c, ?_, hcv⟩
  rw [lookup_lowerConsts hcs, hc]
  intro hq
  rw [fresh.absent _ hq] at hc
  cases hc

theorem Constants.Records.cons (h : known.Records σ item) {other : Item}
    (hne : item.position ≠ other.position) (c : Expr) (v : Datum) :
    Constants.Records ((other.position, c) :: known) (σ.assign other v) item := by
  obtain ⟨hdims, c', hc', hcv⟩ := h
  have hkept : (σ.assign other v).contents item [] = σ.contents item [] :=
    if_neg fun heq => hne (congrArg Item.position heq)
  exact ⟨hdims, c', (lookup_cons_of_ne hne c known).trans hc', by rw [hkept]; exact hcv⟩

theorem Recorded.cons (recorded : Recorded known σ t block) (item : Item) {c : Expr} {v : Datum}
    (habsent : known.lookup item.position = none) (hdims : item.type.dims = []) (hc : c.Denotes v) :
    Recorded ((item.position, c) :: known) (σ.assign item v) (t.extend block [item]) block := by
  intro i hv hk
  rcases Table.visible_extend hv with hv | hi
  · have hi := recorded i hv hk
    refine hi.cons (fun heq => ?_) c v
    obtain ⟨_, c', hc', _⟩ := hi
    rw [heq, habsent] at hc'
    cases hc'
  · obtain rfl := mem_singleton.mp hi
    have hown : (σ.assign i v).contents i [] = v := if_pos rfl
    exact ⟨hdims, c, lookup_cons_self, by rw [hown]; exact hc⟩

/-- The table that lowering sees: in its block are the items of an earlier table and some more. -/
structure Completed (env : Env) (t : Table) (items : List Item) : Prop where
  block : env.block < t.blocks.length
  same : Table.SameFrom env.table (t.extend env.block items) env.block
  visible : ∀ i ∈ items, env.table.Visible env.block i

theorem Completed.tail {i : Item} (completed : Completed env t (i :: items)) :
    Completed env (t.extend env.block [i]) items where
  block := by
    rw [Table.length_extend]
    exact completed.block
  same := by
    rw [Table.extend_extend]
    exact completed.same
  visible := fun j hj => completed.visible j (mem_cons_of_mem _ hj)

/-- An initializer that is the name of a constant means in the end what it meant when its constant
was declared. -/
def Unchanged (env : Env) (t : Table) : List ConstDecl → Prop
  | [] => True
  | d :: ds => (∀ p n item, d.value = .name p n → t.resolve env.block n = .ok item →
      item.kind = .const → env.table.resolve env.block n = .ok item) ∧
    Unchanged env (t.extend env.block [constItem t env.block d]) ds

section

variable (completed : Completed env t (constItems t env.block ds ++ later))

include completed

theorem lowerConsts_kept (ht : t.Typed) (htyped : ConstsTyped t env.block ds)
    (hunsigned : ∀ d ∈ ds, d.value.Unsigned) (fresh : Fresh known (ds.map ConstDecl.position))
    (unchanged : Unchanged env t ds) (recorded : Recorded known σ t env.block) :
    ∃ cs known' σ', lowerConsts env known ds = .ok (cs, known') ∧
      Kept env.table env.block t σ ds cs σ' ∧
      Recorded known' σ' (t.extend env.block (constItems t env.block ds)) env.block := by
  induction ds generalizing t known σ with
  | nil => exact ⟨[], known, σ, rfl, .nil t σ, Table.extend_nil.symm ▸ recorded⟩
  | cons d ds ih =>
    obtain ⟨hd, htyped⟩ := htyped
    obtain ⟨hu, hunsigned⟩ := forall_mem_cons.mp hunsigned
    obtain ⟨hconst, htypeOf⟩ := constType_eq_pure hd
    obtain ⟨hdims, htype, c, v, hc, hv, hcv⟩ :=
      initializer_lowers recorded hconst htypeOf hu unchanged.1
    have herror := typeOf_not_error (ht.declared env.block) d.value htypeOf
    obtain ⟨type, hbase⟩ :=
      ofBase_succeeds (by simpa [MiniPascal.Ty.isError] using herror) d.position
    have habsent := fresh.absent d.position mem_cons_self
    -- The first constant moves into the table, onto the record and into the store.
    obtain ⟨cs, known', σ', hcs, kept, recorded'⟩ :=
      ih completed.tail (ht.extend (forall_mem_singleton.mpr herror)) htyped hunsigned
        (fresh.tail c) unchanged.2 (recorded.cons (constItem t env.block d) habsent hdims hcv)
    rw [Table.extend_extend] at recorded'
    refine ⟨⟨d.name, type, c⟩ :: cs, known', σ', ?_, ?_, recorded'⟩
    · exact lowerConsts_cons.mpr ⟨c, type, cs, hc, htype ▸ hbase, hcs, rfl⟩
    · exact .cons rfl hv hcv (completed.visible _ mem_cons_self) hbase kept

theorem unchanged_outermost (houter : t.ancestors env.block = [env.block]) :
    Unchanged env t ds := by
  induction ds generalizing t with
  | nil => trivial
  | cons d ds ih =>
    refine ⟨fun p n item _ hn hk => ?_, ih completed.tail (by rw [Table.ancestors_extend, houter])⟩
    rw [completed.same.resolve]
    exact Table.resolve_of_findData? (Table.findData?_extend_of_outermost completed.block houter
      (Table.findData?_of_resolve hn hk))

theorem unchanged_of_not_captured (h : capturesAny (later.map Item.name) ds = false) :
    Unchanged env t ds := by
  induction ds generalizing t with
  | nil => trivial
  | cons d ds ih =>
    obtain ⟨hd, hds⟩ := Bool.or_eq_false_iff.mp h
    refine ⟨fun p n item hvalue hn hk => ?_, ih completed.tail hds⟩
    rw [hvalue] at hd
    have hfresh : ∀ i ∈ constItems t env.block (d :: ds) ++ later, i.name ≠ n := by
      rintro i hi rfl
      have hmem := mem_map_of_mem (f := Item.name) hi
      rw [map_append, map_name_constItems] at hmem
      exact Bool.false_ne_true (hd.symm.trans (contains_iff_mem.mpr hmem))
    rw [completed.same.resolve]
    refine Table.resolve_of_findData? ?_
    rw [Table.findData?_extend_of_fresh completed.block hfresh]
    exact Table.findData?_of_resolve hn hk

end

theorem constantValue_var {c : Expr} (hn : env.table.findData? env.block n = some item)
    (hk : item.kind = .var) (h : constantValue env known (.name p n) = .ok c) :
    c.isLiteral = false := by
  have hresolve := Table.resolve_of_findData? hn
  rw [constantValue, hresolve] at h
  rw [lowerExpr, Env.prepared, MiniPascal.Expr.fold, ite_self, convert, hresolve] at h
  rw [place, Table.findPlace?_of_findData? hn] at h
  simp only [placeVar, hk, reduceCtorEq, if_false] at h
  cases h
  rfl

/-- A name that is declared later gets no literal: it means a constant that is not on record, or a
variable. -/
theorem constantValue_captured (completed : Completed env t items)
    (hitems : ∀ i ∈ items, i.kind = .const ∧ known.lookup i.position = none ∨ i.kind = .var)
    (hnew : t.named env.block n = []) (hn : n ∈ items.map Item.name) {c : Expr}
    (h : constantValue env known (.name p n) = .ok c) : c.isLiteral = false := by
  obtain ⟨i, hi, hname⟩ := mem_map.mp hn
  have hdata : i.isData = true := by
    rcases hitems i hi with ⟨hk, _⟩ | hk <;> rw [Item.isData, hk] <;> rfl
  obtain ⟨j, hj, hfound⟩ := Table.findData?_extend_of_hidden completed.block
    (fun i hi => by rw [hnew] at hi; cases hi) ⟨i, hi, hname, hdata⟩
  rw [← completed.same.findData?] at hfound
  rcases hitems j hj with ⟨hk, habsent⟩ | hk
  · rw [constantValue, Table.resolve_of_findData? hfound] at h
    simp only [hk, if_true, habsent] at h
    cases h
  · exact constantValue_var hfound hk h

theorem not_kept_of_captured {σ' : Run.Store}
    (completed : Completed env t (constItems t env.block ds ++ later))
    (hlater : ∀ i ∈ later, i.kind = .var)
    (hnames : (ds.map ConstDecl.name ++ later.map Item.name).Nodup)
    (hnew : ∀ n ∈ ds.map ConstDecl.name ++ later.map Item.name, t.named env.block n = [])
    (fresh : Fresh known (ds.map ConstDecl.position))
    (hcaptured : capturesAny (later.map Item.name) ds = true)
    (h : lowerConsts env known ds = .ok (cs, known')) :
    ¬ Kept env.table env.block t σ ds cs σ' := by
  intro kept
  induction ds generalizing t known σ cs with
  | nil => cases hcaptured
  | cons d ds ih =>
    obtain ⟨c, type, rest, hc, _, hrest, rfl⟩ := lowerConsts_cons.mp h
    cases kept with
    | cons _ _ denotes _ _ kept =>
    obtain ⟨hd, hnames'⟩ := nodup_cons.mp hnames
    rcases Bool.or_eq_true_iff.mp hcaptured with hcaptured | hcaptured
    -- The first constant is captured, so its value is no literal although it is kept.
    · cases hvalue : d.value with
      | name p n =>
        rw [hvalue] at hcaptured hc
        have hn : n ∈ (d :: ds).map ConstDecl.name ++ later.map Item.name :=
          contains_iff_mem.mp hcaptured
        have hliteral : c.isLiteral = false := by
          refine constantValue_captured completed (fun i hi => ?_) (hnew n hn) ?_ hc
          · rcases mem_append.mp hi with hi | hi
            · refine .inl ⟨kind_of_mem_constItems hi, fresh.absent _ ?_⟩
              rw [← map_position_constItems t env.block]
              exact mem_map_of_mem hi
            · exact .inr (hlater i hi)
          · rwa [map_append, map_name_constItems]
        exact Bool.false_ne_true (hliteral.symm.trans denotes.isLiteral)
      | int | real | char | bool | string | element | call | binary | unary =>
        rw [hvalue] at hcaptured
        cases hcaptured
    · refine ih completed.tail hnames' (fun n hn => ?_) (fresh.tail c) hcaptured hrest kept
      have hne : d.name ≠ n := (ne_of_mem_of_not_mem hn hd).symm
      rw [Table.named_extend completed.block, hnew n (mem_cons_of_mem _ hn)]
      simp [constItem, hne]

end

end C

end MiniPascal
