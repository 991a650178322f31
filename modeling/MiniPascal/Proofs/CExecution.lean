import MiniPascal.Proofs.CRunning
import MiniPascal.Proofs.Lowering

/-!
# How often loops in C run

Statements in C are run by a machine that leaves open what a call, input or output does to the
state. A `for` evaluates its last bound before every round, and counts between its bounds on entry
exactly if each of these decides as the one on entry.
-/

namespace MiniPascal.C

open List

structure CountingLoop where
  counter : Var
  first : Expr
  last : Expr
  down : Bool
  body : Statement

namespace CountingLoop

variable (l : CountingLoop)

def statement : Statement := .count l.counter l.first l.last l.down l.body

/-- What is done once, before all rounds. -/
def start : Statement := .assign (.var l.counter) l.first

/-- What is evaluated before every round. -/
def test : Expr :=
  .binary (if l.down then .greaterEqual else .lessEqual) (.var l.counter) l.last

def next : Expr := .binary (if l.down then .sub else .add) (.var l.counter) (.int 1)

/-- What is done after every round. -/
def step : Statement := .assign (.var l.counter) l.next

end CountingLoop

/-- A statement that has no parts and does not leave. -/
def Statement.isSimple : Statement → Bool
  | .assign .. | .call .. | .print .. | .scan .. => true
  | _ => false

/-! ## Counting -/

/-- Whether a count that has come to `x` is not past the last value. -/
def GoesOn (down : Bool) (x last : Int) : Prop := if down then last ≤ x else x ≤ last

instance (down : Bool) (x last : Int) : Decidable (GoesOn down x last) :=
  inferInstanceAs (Decidable (if down then last ≤ x else x ≤ last))

/-- A count that starts at `a`, after `n` steps. -/
def reached (down : Bool) (a : Int) (n : Nat) : Int := if down then a - n else a + n

/-- The first `n` values of a count that starts at `a`. -/
def counting (down : Bool) (a : Int) (n : Nat) : List Int := (List.range n).map (reached down a)

/-- How many values there are from `a` to `b`: none if `b` lies on the other side of `a`. -/
def distance (down : Bool) (a b : Int) : Nat := (if down then a - b + 1 else b - a + 1).toNat

/-- The values from `a` to `b`. -/
def span (down : Bool) (a b : Int) : List Int := counting down a (distance down a b)

/-- The values of the counter in the rounds of a run, of which each test but the last begins one. -/
def counted (tests : List (Int × Int)) : List Int := tests.dropLast.map Prod.fst

section Counting

variable {down : Bool} {a b : Int}

theorem counting_succ (down : Bool) (a : Int) (n : Nat) :
    counting down a (n + 1) = a :: counting down (reached down a 1) n := by
  have hstep : ∀ k : Nat, reached down a (k + 1) = reached down (reached down a 1) k := by
    intro k
    cases down <;> simp only [reached, Bool.false_eq_true, if_false, if_true] <;> omega
  have hstart : reached down a 0 = a := by cases down <;> simp [reached]
  rw [counting, range_succ_eq_map, map_cons, map_map, hstart]
  exact congrArg (a :: ·) (map_congr_left fun k _ => hstep k)

theorem distance_of_goesOn (h : GoesOn down a b) :
    distance down a b = distance down (reached down a 1) b + 1 := by
  unfold GoesOn at h
  cases down <;>
    simp only [distance, reached, Bool.false_eq_true, if_false, if_true] at h ⊢ <;> omega

theorem distance_eq_zero : distance down a b = 0 ↔ ¬GoesOn down a b := by
  unfold GoesOn
  cases down <;> simp only [distance, Bool.false_eq_true, if_false, if_true] <;> omega

theorem span_of_goesOn (h : GoesOn down a b) :
    span down a b = a :: span down (reached down a 1) b := by
  rw [span, distance_of_goesOn h, counting_succ]
  rfl

theorem span_eq_nil : span down a b = [] ↔ ¬GoesOn down a b := by
  rw [span, counting, map_eq_nil_iff, range_eq_nil, distance_eq_zero]

theorem counted_cons {t : Int × Int} {tests : List (Int × Int)} (h : tests ≠ []) :
    counted (t :: tests) = t.1 :: counted tests := by
  rw [counted, dropLast_cons_of_ne_nil h]
  rfl

end Counting

/-! ## Machines -/

/-- An object that holds one value, a pointer where the variable says so. -/
structure Object.IsScalar (o : Object) (v : Var) : Prop where
  isPointer : o.isPointer = v.byReference
  dims : o.dims = []

namespace Store

/-- The integer that an expression is worth. -/
def Shows (τ : Store) (e : Expr) (n : Int) : Prop := ∃ x, e.eval τ = .ok (.int x) ∧ x.toInt = n

def Decides (τ : Store) (e : Expr) (b : Bool) : Prop := (e.eval τ >>= Value.truth) = .ok b

variable {τ : Store} {l : CountingLoop}

theorem Shows.unique {e : Expr} {m n : Int} (hm : τ.Shows e m) (hn : τ.Shows e n) : m = n := by
  obtain ⟨x, hx, rfl⟩ := hm
  obtain ⟨y, hy, rfl⟩ := hn
  cases hx.symm.trans hy
  rfl

variable {o : Object} {v : Var}

theorem objectOf_eq_ok : τ.objectOf v = .ok o ↔
      τ.object v.name v.isResult = some o ∧ o.isPointer = v.byReference := by
  unfold objectOf
  cases τ.object v.name v.isResult with
  | none => simp
  | some p => by_cases hp : p.isPointer = v.byReference <;> grind

theorem eval_var (ho : τ.object v.name v.isResult = some o) (scalar : o.IsScalar v) :
    (Expr.var v).eval τ = .ok (o.contents []) := by
  have hobject : τ.objectOf v = .ok o := objectOf_eq_ok.mpr ⟨ho, scalar.isPointer⟩
  obtain ⟨isPointer, dims, contents⟩ := o
  obtain ⟨_, rfl⟩ := scalar
  have hlocated : τ.located v [] = .ok ⟨v, []⟩ := by
    rw [located, hobject]
    rfl
  rw [Expr.eval, hlocated]
  change τ.load ⟨v, []⟩ = _
  rw [load, hobject]
  rfl

theorem shows_var (ho : τ.object v.name v.isResult = some o) (scalar : o.IsScalar v) {x : Int64}
    (hx : o.contents [] = .int x) : τ.Shows (.var v) x.toInt :=
  ⟨x, by rw [eval_var ho scalar, hx], rfl⟩

theorem Shows.object {v : Var} {n : Int} (h : τ.Shows (.var v) n) :
    ∃ o, τ.object v.name v.isResult = some o ∧ o.IsScalar v := by
  obtain ⟨x, hx, _⟩ := h
  obtain ⟨q, hq, hx⟩ := Except.bind_eq_ok.mp hx
  obtain ⟨o, ho, hq⟩ := Except.bind_eq_ok.mp hq
  obtain ⟨hobject, hpointer⟩ := objectOf_eq_ok.mp ho
  have hvar : q = ⟨v, []⟩ := by
    split at hq
    · cases hq
    · split at hq
      · cases hq
        rfl
      · cases hq
  subst hvar
  obtain ⟨o', ho', hx⟩ := Except.bind_eq_ok.mp hx
  cases ho.symm.trans ho'
  refine ⟨o, hobject, hpointer, ?_⟩
  by_contra hdims
  rw [if_neg fun hlength => hdims (length_eq_zero_iff.mp hlength.symm)] at hx
  cases hx

theorem eval_binary (op : BinaryOp) {e f : Expr} {a : Value} (ha : e.eval τ = .ok a) :
    (Expr.binary op e f).eval τ = op.combine a (f.eval τ) := by
  rw [Expr.eval, ha]
  rfl

theorem truth_ofBool (b : Bool) : (Value.ofBool b).truth = .ok b := by
  cases b <;> rfl

theorem decides_test {x w : Int} {b : Bool} (hx : τ.Shows (.var l.counter) x)
    (hw : τ.Shows l.last w) : τ.Decides l.test b ↔ b = decide (GoesOn l.down x w) := by
  obtain ⟨x, hx, rfl⟩ := hx
  obtain ⟨w, hw, rfl⟩ := hw
  have htest : l.test.eval τ = .ok (.ofBool (decide (GoesOn l.down x.toInt w.toInt))) := by
    rw [CountingLoop.test, eval_binary _ hx, hw]
    cases l.down with
    | false =>
      have hholds : BinaryOp.lessEqual.holds (compare x.toInt w.toInt) =
          decide (GoesOn false x.toInt w.toInt) := by
        rw [Bool.eq_iff_iff, BinaryOp.holds, bne_iff_ne, Int.compare_ne_gt, decide_eq_true_iff]
        exact Iff.rfl
      exact congrArg (fun b => Except.ok (Value.ofBool b)) hholds
    | true =>
      have hholds : BinaryOp.greaterEqual.holds (compare x.toInt w.toInt) =
          decide (GoesOn true x.toInt w.toInt) := by
        rw [Bool.eq_iff_iff, BinaryOp.holds, bne_iff_ne, Int.compare_ne_lt, decide_eq_true_iff]
        exact Iff.rfl
      exact congrArg (fun b => Except.ok (Value.ofBool b)) hholds
  have htruth : (l.test.eval τ >>= Value.truth) = .ok (decide (GoesOn l.down x.toInt w.toInt)) := by
    rw [htest]
    exact truth_ofBool _
  rw [Decides, htruth, Except.ok.injEq]
  exact eq_comm

theorem eval_next {x : Int} (hx : τ.Shows (.var l.counter) x) :
    l.next.eval τ = Value.word (Integer.ofInt? (reached l.down x 1)) := by
  obtain ⟨x, hx, rfl⟩ := hx
  rw [CountingLoop.next, eval_binary _ hx]
  cases l.down <;> rfl

theorem shows_next {x n : Int} (hx : τ.Shows (.var l.counter) x) :
    τ.Shows l.next n ↔ (Integer.ofInt? n).isSome ∧ n = reached l.down x 1 := by
  rw [Shows, eval_next hx]
  cases hy : Integer.ofInt? (reached l.down x 1) with
  | none =>
    apply iff_of_false
    · rintro ⟨_, h, _⟩
      cases h
    · rintro ⟨hsome, rfl⟩
      rw [hy] at hsome
      cases hsome
  | some y =>
    constructor
    · rintro ⟨_, ⟨⟩, rfl⟩
      rw [Integer.toInt_of_ofInt? hy, hy]
      exact ⟨rfl, rfl⟩
    · rintro ⟨_, rfl⟩
      exact ⟨y, rfl, Integer.toInt_of_ofInt? hy⟩

end Store

/-- What runs statements. Its states hold stores, and each evaluation and each statement without
parts leads from states to states. An assignment to a variable that holds an integer is one. -/
structure Machine where
  State : Type
  store : State → Store
  evaluates : Expr → State → State → Prop
  does : Statement → State → State → Prop
  assigned : ∀ {v : Var} {e : Expr} {s s' : State} {m n : Int}, does (.assign (.var v) e) s s' →
    (store s).Shows (.var v) m → (store s).Shows e n → (store s').Shows (.var v) n

namespace Machine

mutual

/-- The runs of a statement that come to its end. -/
inductive Exec (M : Machine) : Statement → M.State → M.State → Prop where
  | simple {t : Statement} {s s' : M.State} (simple : t.isSimple = true) (done : M.does t s s') :
      Exec M t s s'
  | compound {parts : List Statement} {s s' : M.State} (all : ExecAll M parts s s') :
      Exec M (.compound parts) s s'
  | onTrue {c : Expr} {t : Statement} {e : Option Statement} {s s₁ s' : M.State}
      (holds : (M.store s).Decides c true) (decided : M.evaluates c s s₁) (run : Exec M t s₁ s') :
      Exec M (.branch c t e) s s'
  | onFalse {c : Expr} {t e : Statement} {s s₁ s' : M.State}
      (fails : (M.store s).Decides c false) (decided : M.evaluates c s s₁) (run : Exec M e s₁ s') :
      Exec M (.branch c t (some e)) s s'
  | neither {c : Expr} {t : Statement} {s s' : M.State} (fails : (M.store s).Decides c false)
      (decided : M.evaluates c s s') : Exec M (.branch c t none) s s'
  | again {c : Expr} {t : Statement} {s s₁ s₂ s' : M.State} (holds : (M.store s).Decides c true)
      (decided : M.evaluates c s s₁) (run : Exec M t s₁ s₂) (rest : Exec M (.loop c t) s₂ s') :
      Exec M (.loop c t) s s'
  | ended {c : Expr} {t : Statement} {s s' : M.State} (fails : (M.store s).Decides c false)
      (decided : M.evaluates c s s') : Exec M (.loop c t) s s'
  | count {l : CountingLoop} {s s₁ s' : M.State} {tests : List (Int × Int)}
      (started : M.does l.start s s₁) (rounds : Rounds M l s₁ tests s') : Exec M l.statement s s'

inductive ExecAll (M : Machine) : List Statement → M.State → M.State → Prop where
  | nil {s : M.State} : ExecAll M [] s s
  | cons {t : Statement} {ts : List Statement} {s s₁ s' : M.State} (first : Exec M t s s₁)
      (rest : ExecAll M ts s₁ s') : ExecAll M (t :: ts) s s'

/-- The rounds of a counting loop after its start, with what each test finds: the value of the
counter and that of the last bound. -/
inductive Rounds (M : Machine) :
    CountingLoop → M.State → List (Int × Int) → M.State → Prop where
  | ended {l : CountingLoop} {s s' : M.State} {x w : Int}
      (counter : (M.store s).Shows (.var l.counter) x) (bound : (M.store s).Shows l.last w)
      (fails : (M.store s).Decides l.test false) (decided : M.evaluates l.test s s') :
      Rounds M l s [(x, w)] s'
  | round {l : CountingLoop} {s s₁ s₂ s₃ s' : M.State} {x w n : Int} {tests : List (Int × Int)}
      (counter : (M.store s).Shows (.var l.counter) x) (bound : (M.store s).Shows l.last w)
      (holds : (M.store s).Decides l.test true) (decided : M.evaluates l.test s s₁)
      (body : Exec M l.body s₁ s₂) (next : (M.store s₂).Shows l.next n)
      (stepped : M.does l.step s₂ s₃) (rest : Rounds M l s₃ tests s') :
      Rounds M l s ((x, w) :: tests) s'

end

variable (M : Machine) (l : CountingLoop)

/-- The runs of a counting loop, with what its tests find. -/
def Runs (s : M.State) (tests : List (Int × Int)) (s' : M.State) : Prop :=
  ∃ s₁, M.does l.start s s₁ ∧ M.Rounds l s₁ tests s'

/-- One round: the test, the body and the step, which needs a word to step to. -/
def Round (s s' : M.State) : Prop :=
  ∃ s₁ s₂ n, M.evaluates l.test s s₁ ∧ M.Exec l.body s₁ s₂ ∧ (M.store s₂).Shows l.next n ∧
    M.does l.step s₂ s'

/-- Only the loop itself writes its counter. -/
structure KeepsCounter : Prop where
  test : ∀ {s s' : M.State} {x : Int}, M.evaluates l.test s s' →
    (M.store s).Shows (.var l.counter) x → (M.store s').Shows (.var l.counter) x
  body : ∀ {s s' : M.State} {x : Int}, M.Exec l.body s s' →
    (M.store s).Shows (.var l.counter) x → (M.store s').Shows (.var l.counter) x

/-- Nothing in the loop changes the value of the last bound. -/
structure KeepsBound : Prop where
  start : ∀ {s s' : M.State} {w : Int}, M.does l.start s s' →
    (M.store s).Shows l.last w → (M.store s').Shows l.last w
  round : ∀ {s s' : M.State} {w : Int}, M.Round l s s' →
    (M.store s).Shows l.last w → (M.store s').Shows l.last w

/-- A condition under which the loop gets from each test to the next one, and past the last. -/
structure Progresses (b : Int) (ready : M.State → Prop) : Prop where
  round : ∀ {s : M.State} {x : Int}, ready s → (M.store s).Shows (.var l.counter) x →
    GoesOn l.down x b → ∃ s', M.Round l s s' ∧ ready s'
  ended : ∀ {s : M.State}, ready s → ∃ s', M.evaluates l.test s s'

/-- How the runs of a loop that is entered in a state, with bounds of the values `a` and `b`,
compare with a count from `a` to `b`. -/
structure Follows (s : M.State) (a b : Int) : Prop where
  successive : ∀ {tests : List (Int × Int)} {s' : M.State}, M.Runs l s tests s' →
    tests.map Prod.fst = counting l.down a tests.length
  exact_iff : ∀ {tests : List (Int × Int)} {s' : M.State}, M.Runs l s tests s' →
    (counted tests = span l.down a b ↔
      ∀ t ∈ tests, GoesOn l.down t.1 t.2 ↔ GoesOn l.down t.1 b)
  kept : M.KeepsBound l → ∀ {tests : List (Int × Int)} {s' : M.State}, M.Runs l s tests s' →
    counted tests = span l.down a b
  completes : M.KeepsBound l → ∀ {s₁ : M.State} {ready : M.State → Prop}, M.does l.start s s₁ →
    ready s₁ → M.Progresses l b ready → ∃ tests s', M.Runs l s tests s'

variable {M l} {tests : List (Int × Int)} {a : Int} {s s' : M.State}

theorem Rounds.ne_nil (h : M.Rounds l s tests s') : tests ≠ [] := by
  cases h <;> exact cons_ne_nil _ _

theorem Exec.does_of_assign {target value : Expr} (h : M.Exec (.assign target value) s s') :
    M.does (.assign target value) s s' := by
  cases h with
  | simple _ done => exact done

theorem Rounds.cases_test (h : M.Rounds l s tests s') (ha : (M.store s).Shows (.var l.counter) a) :
    ∃ w rest, tests = (a, w) :: rest ∧ (M.store s).Shows l.last w ∧
      (¬GoesOn l.down a w ∧ rest = [] ∨
        GoesOn l.down a w ∧ ∃ s₁, M.Round l s s₁ ∧ M.Rounds l s₁ rest s') := by
  cases h with
  | ended counter bound fails decided =>
    obtain rfl := counter.unique ha
    have hpast := (Store.decides_test counter bound).mp fails
    exact ⟨_, _, rfl, bound, .inl ⟨of_decide_eq_false hpast.symm, rfl⟩⟩
  | round counter bound holds decided body next stepped rest =>
    obtain rfl := counter.unique ha
    have hgoes := (Store.decides_test counter bound).mp holds
    exact ⟨_, _, rfl, bound, .inr ⟨of_decide_eq_true hgoes.symm, _,
      ⟨_, _, _, decided, body, next, stepped⟩, rest⟩⟩

theorem Round.rounds {s₁ : M.State} {w : Int} (h : M.Round l s s₁)
    (ha : (M.store s).Shows (.var l.counter) a) (hw : (M.store s).Shows l.last w)
    (hgoes : GoesOn l.down a w) (rest : M.Rounds l s₁ tests s') :
    M.Rounds l s ((a, w) :: tests) s' := by
  obtain ⟨_, _, _, hdecided, hbody, hnext, hstep⟩ := h
  have hholds := (Store.decides_test ha hw).mpr (decide_eq_true hgoes).symm
  exact .round ha hw hholds hdecided hbody hnext hstep rest

theorem Rounds.past {w : Int} (ha : (M.store s).Shows (.var l.counter) a)
    (hw : (M.store s).Shows l.last w) (hpast : ¬GoesOn l.down a w)
    (hdecided : M.evaluates l.test s s') : M.Rounds l s [(a, w)] s' :=
  .ended ha hw ((Store.decides_test ha hw).mpr (decide_eq_false hpast).symm) hdecided

variable (keeps : M.KeepsCounter l)

include keeps

theorem KeepsCounter.round {x : Int} (h : M.Round l s s')
    (hx : (M.store s).Shows (.var l.counter) x) :
    (M.store s').Shows (.var l.counter) (reached l.down x 1) := by
  obtain ⟨s₁, s₂, n, htest, hbody, hnext, hstep⟩ := h
  have hcounter := keeps.body hbody (keeps.test htest hx)
  rw [← ((Store.shows_next hcounter).mp hnext).2]
  exact M.assigned hstep hcounter hnext

/-- What holds of a run if it holds of the last test and each round hands it on. -/
theorem Rounds.induction {P : M.State → Int → List (Int × Int) → Prop}
    (ended : ∀ {s a w}, (M.store s).Shows l.last w → ¬GoesOn l.down a w → P s a [(a, w)])
    (round : ∀ {s s₁ a w rest}, (M.store s).Shows l.last w → GoesOn l.down a w → M.Round l s s₁ →
      rest ≠ [] → P s₁ (reached l.down a 1) rest → P s a ((a, w) :: rest)) {s s' : M.State}
    {tests : List (Int × Int)} (h : M.Rounds l s tests s') {a : Int}
    (ha : (M.store s).Shows (.var l.counter) a) : P s a tests := by
  induction tests generalizing s a with
  | nil => exact (h.ne_nil rfl).elim
  | cons t tests ih =>
    obtain ⟨w, rest, heq, hw, hcases⟩ := h.cases_test ha
    cases heq
    rcases hcases with ⟨hpast, rfl⟩ | ⟨hgoes, s₁, hround, hrest⟩
    · exact ended hw hpast
    · exact round hw hgoes hround hrest.ne_nil (ih hrest (keeps.round hround ha))

theorem Rounds.successive (h : M.Rounds l s tests s') (ha : (M.store s).Shows (.var l.counter) a) :
    tests.map Prod.fst = counting l.down a tests.length := by
  apply h.induction keeps (P := fun _ a tests =>
    tests.map Prod.fst = counting l.down a tests.length) _ _ ha
  · intro s a w _ _
    exact (counting_succ l.down a 0).symm
  · intro s s₁ a w rest _ _ _ _ ih
    rw [map_cons, length_cons, counting_succ, ih]

/-- The rounds count from `a` to `b` exactly if each bound that is found decides as `b` does: the
first one that does not ends the count too early or lets it go on. -/
theorem Rounds.counted_iff (h : M.Rounds l s tests s') (ha : (M.store s).Shows (.var l.counter) a)
    (b : Int) : counted tests = span l.down a b ↔
      ∀ t ∈ tests, GoesOn l.down t.1 t.2 ↔ GoesOn l.down t.1 b := by
  apply h.induction keeps (P := fun _ a tests => counted tests = span l.down a b ↔
    ∀ t ∈ tests, GoesOn l.down t.1 t.2 ↔ GoesOn l.down t.1 b) _ _ ha
  · intro s a w _ hpast
    have hnone : counted [(a, w)] = [] := rfl
    rw [hnone, eq_comm, span_eq_nil, forall_mem_singleton, iff_false_left hpast]
  · intro s s₁ a w rest _ hgoes _ hne ih
    rw [counted_cons hne, forall_mem_cons, iff_true_left hgoes]
    by_cases hb : GoesOn l.down a b
    · rw [span_of_goesOn hb, List.cons.injEq, ih]
      exact and_congr (iff_of_true rfl hb) Iff.rfl
    · rw [span_eq_nil.mpr hb]
      exact iff_of_false (cons_ne_nil _ _) fun h => hb h.1

theorem Rounds.bound_eq (kept : M.KeepsBound l) (h : M.Rounds l s tests s') {b : Int}
    (ha : (M.store s).Shows (.var l.counter) a) :
    (M.store s).Shows l.last b → ∀ t ∈ tests, t.2 = b := by
  apply h.induction keeps (P := fun s _ tests =>
    (M.store s).Shows l.last b → ∀ t ∈ tests, t.2 = b) _ _ ha
  · intro s a w hw _ hb
    exact forall_mem_singleton.mpr (hw.unique hb)
  · intro s s₁ a w rest hw _ hround _ ih hb
    exact forall_mem_cons.mpr ⟨hw.unique hb, ih (kept.round hround hb)⟩

/-- A loop that progresses comes to its end, since every round brings it nearer to its bound. -/
theorem Progresses.exists_rounds (kept : M.KeepsBound l) {b : Int} {ready : M.State → Prop}
    (progresses : M.Progresses l b ready) (hs : ready s)
    (ha : (M.store s).Shows (.var l.counter) a) (hb : (M.store s).Shows l.last b) :
    ∃ tests s', M.Rounds l s tests s' := by
  generalize hn : distance l.down a b = n
  induction n generalizing s a with
  | zero =>
    obtain ⟨s', hdecided⟩ := progresses.ended hs
    exact ⟨_, s', .past ha hb (distance_eq_zero.mp hn) hdecided⟩
  | succ n ih =>
    have hgoes : GoesOn l.down a b := by
      by_contra hpast
      rw [distance_eq_zero.mpr hpast] at hn
      cases hn
    obtain ⟨s₁, hround, hready⟩ := progresses.round hs ha hgoes
    rw [distance_of_goesOn hgoes] at hn
    obtain ⟨tests, s', hrest⟩ := ih hready (keeps.round hround ha) (kept.round hround hb)
      (Nat.succ.inj hn)
    exact ⟨_, s', hround.rounds ha hb hgoes hrest⟩

theorem follows {x b : Int} (hx : (M.store s).Shows (.var l.counter) x)
    (ha : (M.store s).Shows l.first a) (hb : (M.store s).Shows l.last b) : M.Follows l s a b where
  successive := by
    rintro tests s' ⟨s₁, hstart, hrounds⟩
    exact hrounds.successive keeps (M.assigned hstart hx ha)
  exact_iff := by
    rintro tests s' ⟨s₁, hstart, hrounds⟩
    exact hrounds.counted_iff keeps (M.assigned hstart hx ha) b
  kept := by
    rintro kept tests s' ⟨s₁, hstart, hrounds⟩
    have hcounter := M.assigned hstart hx ha
    have hbound := hrounds.bound_eq keeps kept hcounter (kept.start hstart hb)
    exact (hrounds.counted_iff keeps hcounter b).mpr fun t ht => by rw [hbound t ht]
  completes := by
    intro kept s₁ ready hstart hready progresses
    obtain ⟨tests, s', hrounds⟩ := progresses.exists_rounds keeps kept hready
      (M.assigned hstart hx ha) (kept.start hstart hb)
    exact ⟨tests, s', s₁, hstart, hrounds⟩

end Machine

/-! ## A machine of variables -/

namespace Store

def set (τ : Store) (v : Var) (x : Value) : Store where
  object name isResult :=
    if name = v.name ∧ isResult = v.isResult then
      (τ.object name isResult).map fun o => { o with contents := fun _ => x }
    else τ.object name isResult
  function := τ.function

variable {τ : Store} {v w : Var} {m : Int}

theorem shows_set (h : τ.Shows (.var v) m) (x : Int64) :
    (τ.set v (.int x)).Shows (.var v) x.toInt := by
  obtain ⟨o, ho, scalar⟩ := h.object
  have hset : (τ.set v (.int x)).object v.name v.isResult =
      some { o with contents := fun _ => .int x } := by
    refine (if_pos ⟨rfl, rfl⟩).trans ?_
    rw [ho]
    rfl
  exact shows_var hset ⟨scalar.isPointer, scalar.dims⟩ rfl

theorem shows_set_of_ne (hne : v.name ≠ w.name) (x : Value) (h : τ.Shows (.var v) m) :
    (τ.set w x).Shows (.var v) m := by
  obtain ⟨o, ho, scalar⟩ := h.object
  obtain ⟨y, hy, rfl⟩ := h
  have hset : (τ.set w x).object v.name v.isResult = some o := by
    exact (if_neg fun heq => hne heq.1).trans ho
  rw [eval_var ho scalar] at hy
  exact shows_var hset scalar (Except.ok.inj hy)

end Store

/-- The machine that only sets variables: an evaluation changes nothing, and no call is made. -/
def Machine.plain : Machine where
  State := Store
  store τ := τ
  evaluates _ τ τ' := τ' = τ
  does t τ τ' := ∃ v e x, t = .assign (.var v) e ∧ e.eval τ = .ok x ∧ τ' = τ.set v x
  assigned := by
    rintro _ _ τ _ m n ⟨v, e, x, ht, hx, rfl⟩ hm ⟨y, hy, rfl⟩
    cases ht
    cases hx.symm.trans hy
    exact Store.shows_set hm y

section Plain

variable {v : Var} {e : Expr} {τ τ' : Store} {l : CountingLoop} {x : Value}

theorem plain_does (hx : e.eval τ = .ok x) :
    Machine.plain.does (.assign (.var v) e) τ (τ.set v x) :=
  ⟨v, e, x, rfl, hx, rfl⟩

theorem plain_exec (hx : e.eval τ = .ok x) :
    Machine.plain.Exec (.assign (.var v) e) τ (τ.set v x) :=
  .simple rfl (plain_does hx)

theorem eq_set_of_exec (h : Machine.plain.Exec (.assign (.var v) e) τ τ') :
    ∃ x, τ' = τ.set v x := by
  obtain ⟨_, _, x, ht, _, rfl⟩ := h.does_of_assign
  cases ht
  exact ⟨x, rfl⟩

theorem plain_keepsCounter (hbody : l.body = .assign (.var v) e) (hne : l.counter.name ≠ v.name) :
    Machine.plain.KeepsCounter l where
  test := by
    rintro τ _ x rfl hx
    exact hx
  body := by
    intro τ τ' x hrun hx
    rw [hbody] at hrun
    obtain ⟨y, rfl⟩ := eq_set_of_exec hrun
    exact Store.shows_set_of_ne hne y hx

theorem plain_round (hbody : l.body = .assign (.var v) e) (hne : l.counter.name ≠ v.name)
    {x : Int} (hx : τ.Shows (.var l.counter) x) {y : Value} (hy : e.eval τ = .ok y)
    (hword : (Integer.ofInt? (reached l.down x 1)).isSome) :
    ∃ z, Machine.plain.Round l τ ((τ.set v y).set l.counter z) := by
  have hcounter := Store.shows_set_of_ne hne y hx
  obtain ⟨z, hz, hnext⟩ := (Store.shows_next hcounter).mpr ⟨hword, rfl⟩
  exact ⟨.int z, τ, τ.set v y, _, rfl, hbody ▸ plain_exec hy, ⟨z, hz, hnext⟩, plain_does hz⟩

end Plain

end MiniPascal.C
