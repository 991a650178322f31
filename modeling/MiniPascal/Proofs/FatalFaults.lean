import MiniPascal.Compiler
import MiniPascal.Proofs.ReadPrograms
import Mathlib.Data.List.TakeWhile

/-!
# Input that is no token

Input that is no token is fatal, but only once the reader gets to it: up to there it reads as if the
text ended well.
-/

namespace MiniPascal

open List

/-- The same session before another end of the text. -/
def Session.endedBy (last : Token) (s : Session) : Session :=
  { s with input := { s.input with last } }

/-- No token before the end is input that is no token. -/
def Session.Valid (s : Session) : Prop := ∀ t ∈ s.input.tokens, t.kind ≠ .invalid

variable {tokens : List Token} {s : Session}

theorem Session.Valid.of_le {u : Session} (h : u.Valid) (hle : s ≤ u) : s.Valid :=
  fun t ht => h t (hle.1.1.subset ht)

namespace Outcome

variable {α : Type}

def left : EStateM.Result Fault Session α → List Token
  | .ok _ s | .error _ s => s.input.tokens

def endedBy (last : Token) : EStateM.Result Fault Session α → EStateM.Result Fault Session α
  | .ok a s => .ok a (s.endedBy last)
  | .error e s => .error e (s.endedBy last)

theorem left_endedBy (last : Token) (r : EStateM.Result Fault Session α) :
    left (endedBy last r) = left r := by
  cases r <;> rfl

end Outcome

open Outcome Step

section Steady

variable {α β : Type} {x : Phrase α} {f : α → Phrase β} {s : Session} {l l' : Token}

/-- Of two ends of one text either both are reached, or neither is seen. -/
def Alike (x : Phrase α) (s : Session) (l l' : Token) : Prop :=
  left (x (s.endedBy l)) = [] ∧ left (x (s.endedBy l')) = [] ∨
    ∃ r, left r ≠ [] ∧ x (s.endedBy l) = endedBy l r ∧ x (s.endedBy l') = endedBy l' r

theorem Alike.of_eq (r : EStateM.Result Fault Session α) (h : x (s.endedBy l) = endedBy l r)
    (h' : x (s.endedBy l') = endedBy l' r) : Alike x s l l' := by
  by_cases hr : left r = []
  · left
    rw [h, h', left_endedBy, left_endedBy]
    exact ⟨hr, hr⟩
  · exact .inr ⟨r, hr, h, h'⟩

theorem left_eq_nil (hx : Advances x) (hs : s.input.tokens = []) : left (x s) = [] := by
  have hle := hx s
  cases h : x s <;> rw [h] at hle <;> exact suffix_nil.mp (hs ▸ hle.1.1)

theorem left_bind_eq_nil (hf : ∀ a, Advances (f a)) (h : left (x s) = []) :
    left ((x >>= f) s) = [] := by
  change left (EStateM.bind x f s) = []
  unfold EStateM.bind
  cases hx : x s with
  | ok a s' =>
    rw [hx] at h
    exact left_eq_nil (hf a) h
  | error e s' =>
    rw [hx] at h
    exact h

/-- A reader that does not see the end of the text before it is there. -/
def Steady (x : Phrase α) : Prop :=
  ∀ s ⦃l l' : Token⦄, l.kind.isLast = true → l'.kind.isLast = true → Alike x s l l'

/-- At the end of the text a reader stays there, so ends need comparing only before it. -/
theorem Steady.of_cons (hx : Advances x)
    (h : ∀ t ts last notes ⦃l l' : Token⦄, l.kind.isLast = true → l'.kind.isLast = true →
      Alike x ⟨⟨t :: ts, last⟩, notes⟩ l l') : Steady x := by
  rintro ⟨⟨ts, last⟩, notes⟩ l l' hl hl'
  cases ts with
  | nil => exact .inl ⟨left_eq_nil hx rfl, left_eq_nil hx rfl⟩
  | cons t ts => exact h t ts last notes hl hl'

theorem Steady.bind (hx : Steady x) (hadvances : ∀ a, Advances (f a)) (hf : ∀ a, Steady (f a)) :
    Steady (x >>= f) := by
  intro s l l' hl hl'
  rcases hx s hl hl' with ⟨h, h'⟩ | ⟨r, hr, h, h'⟩
  · exact .inl ⟨left_bind_eq_nil hadvances h, left_bind_eq_nil hadvances h'⟩
  · cases r with
    | ok a u =>
      unfold Alike
      rw [bind_of_ok h, bind_of_ok h']
      exact hf a u hl hl'
    | error e u =>
      refine .of_eq (.error e u) ?_ ?_
      · change EStateM.bind x f _ = _
        unfold EStateM.bind
        rw [h]
        rfl
      · change EStateM.bind x f _ = _
        unfold EStateM.bind
        rw [h']
        rfl

section Attempt

variable {f : Except Fault α → Phrase β} {u : Session}

theorem attempt_bind_ok {a : α} (h : x s = .ok a u) : (Step.attempt x >>= f) s = f (.ok a) u := by
  refine bind_of_ok ?_ f
  unfold Step.attempt
  rw [h]

theorem attempt_bind_error {e : Fault} (h : x s = .error e u) :
    (Step.attempt x >>= f) s = f (.error e) u := by
  refine bind_of_ok ?_ f
  unfold Step.attempt
  rw [h]

end Attempt

theorem Steady.attempt (hx : Steady x) : Steady (Step.attempt x) := by
  intro s l l' hl hl'
  have hleft : ∀ s, left (Step.attempt x s) = left (x s) := by
    intro s
    unfold Step.attempt
    cases x s <;> rfl
  rcases hx s hl hl' with ⟨h, h'⟩ | ⟨r, hr, h, h'⟩
  · exact .inl ⟨(hleft _).trans h, (hleft _).trans h'⟩
  · cases r with
    | ok a u => refine .of_eq (.ok (.ok a) u) ?_ ?_ <;> simp only [Step.attempt, h, h'] <;> rfl
    | error e u => refine .of_eq (.ok (.error e) u) ?_ ?_ <;> simp only [Step.attempt, h, h'] <;> rfl

theorem beginsStatement_endedBy {i : Input} (hi : i.tokens ≠ []) (hl : l.kind.isLast = true)
    (hl' : l'.kind.isLast = true) :
    Input.beginsStatement { i with last := l } = Input.beginsStatement { i with last := l' } := by
  have hother : ∀ {k : Token.Kind} {m : Mark}, k.isLast = true → (k == .mark m) = false := by
    rintro k m hk
    cases k <;> first | rfl | cases hk
  match i, hi with
  | ⟨t :: u :: ts, last⟩, _ => rfl
  | ⟨[t], last⟩, _ =>
    simp [Input.beginsStatement, Input.kind, Input.current, Input.nextKind, hother hl, hother hl']

theorem steady_begins : Steady begins := by
  refine .of_cons Made.begins.advances fun t ts last notes l l' hl hl' => ?_
  have hbegins := beginsStatement_endedBy (i := ⟨t :: ts, last⟩) (cons_ne_nil t ts) hl hl'
  refine .of_eq (.ok (Input.beginsStatement ⟨t :: ts, l⟩) ⟨⟨t :: ts, last⟩, notes⟩) rfl ?_
  rw [hbegins]
  rfl

theorem steady_refuse : Steady refuse := by
  refine .of_cons Made.refuse.advances fun t ts last notes l l' _ _ => ?_
  by_cases ht : t.kind = .invalid
  · refine .of_eq (.error (.lexical (.ofToken t)) ⟨⟨t :: ts, last⟩, notes⟩) ?_ ?_ <;>
      exact (refuse_apply _).trans (if_pos ht)
  · refine .of_eq (.ok () ⟨⟨t :: ts, last⟩, notes⟩) ?_ ?_ <;>
      exact (refuse_apply _).trans (if_neg ht)

theorem Made.steady (h : Made x) : Steady x := by
  induction h with
  | pure a => exact fun s _ _ _ _ => .of_eq (.ok a s) rfl rfl
  | bind _ hmade hx hf => exact hx.bind (fun a => (hmade a).advances) hf
  | attempt _ hok hphrase hlexical hp hoks hphrases =>
    have hadvances := Step.advances_after (fun a => (hok a).advances)
      (fun e => (hphrase e).advances) hlexical
    refine hp.attempt.bind hadvances fun r => ?_
    match r with
    | .ok a => exact hoks a
    | .error (.phrase e) => exact hphrases e
    | .error (.lexical e) =>
      exact fun s _ _ _ _ => .of_eq (.error (.lexical e) s) (hlexical ..) (hlexical ..)
  | current =>
    exact .of_cons Made.current.advances fun t ts last notes _ _ _ _ =>
      .of_eq (.ok t ⟨⟨t :: ts, last⟩, notes⟩) rfl rfl
  | begins => exact steady_begins
  | refuse => exact steady_refuse
  | count => exact fun s _ _ _ _ => .of_eq (Step.count s) rfl rfl
  | advance => exact fun s _ _ _ _ => .of_eq (Step.advance s) rfl rfl
  | skip stops => exact fun s _ _ _ _ => .of_eq (Step.skip stops s) rfl rfl
  | note n => exact fun s _ _ _ _ => .of_eq (Step.note n s) rfl rfl
  | giveUp e => exact fun s _ _ _ _ => .of_eq (.error (.phrase e) s) rfl rfl

/-- A reader that gives up for good does so before input that is no token. -/
def Blames (x : Phrase α) : Prop := ∀ ⦃s e s'⦄, s.Valid → x s = .error (.lexical e) s' →
  s.input.last.kind = .invalid ∧ e = .ofToken s.input.last

theorem Blames.of_le (hx : Blames x) {u u' : Session} {e : LexError} (hs : s.Valid) (hle : u ≤ s)
    (h : x u = .error (.lexical e) u') :
    s.input.last.kind = .invalid ∧ e = .ofToken s.input.last := by
  rw [← hle.1.2]
  exact hx (hs.of_le hle) h

theorem Made.blames (h : Made x) : Blames x := by
  induction h with
  | pure | current | count | begins | advance | skip | note | giveUp =>
    intro s e s' _ h
    cases h
  | @bind _ _ x f hmade _ hx hf =>
    intro s e s' hs h
    change EStateM.bind x f s = _ at h
    unfold EStateM.bind at h
    cases hxs : x s with
    | ok a u =>
      rw [hxs] at h
      exact (hf a).of_le hs (hmade.advances.of_ok hxs) h
    | error e' u =>
      rw [hxs] at h
      cases h
      exact hx hs hxs
  | @attempt _ _ p f hmade _ _ hlexical hp hok hphrase =>
    intro s e s' hs h
    have hle := hmade.advances s
    cases hps : p s with
    | ok a u =>
      rw [hps] at hle
      rw [attempt_bind_ok hps] at h
      exact (hok a).of_le hs hle h
    | error e' u =>
      rw [hps] at hle
      rw [attempt_bind_error hps] at h
      cases e' with
      | phrase e' => exact (hphrase e').of_le hs hle h
      | lexical e' =>
        rw [hlexical] at h
        cases h
        exact hp hs hps
  | refuse =>
    intro s e s' hs h
    rw [refuse_apply] at h
    split at h
    · next hkind =>
      cases h
      match s, hs, hkind with
      | ⟨⟨[], last⟩, notes⟩, _, hkind => exact ⟨hkind, rfl⟩
      | ⟨⟨t :: ts, last⟩, notes⟩, hs, hkind => exact absurd hkind (hs t mem_cons_self)
    · cases h

end Steady

namespace Recover

/-- A program without the point after it. -/
def unpointed : Recover Program := do
  let (name, parameters, p) ← programHead
  let consts ← constSection
  let vars ← varSection
  let subprograms ← subprogramsWithin (← get).input.tokens.length
  let (parts, q) ← block
  return ⟨name, parameters, p, subprograms, ⟨consts, vars, parts, q⟩⟩

/-- The point after a program, and nothing behind it. -/
def pointed : Recover Unit := do
  if ← demand (.mark .dot) "'.' after program body" then
    if (← kind) ≠ .endOfText then recordExpected "end of file after '.'"

theorem program_eq : program = unpointed >>= fun p => pointed >>= fun _ => pure p := by
  unfold program unpointed pointed
  simp only [bind_assoc, pure_bind]
  refine bind_congr fun head => bind_congr fun consts => bind_congr fun vars => bind_congr fun s =>
    bind_congr fun subprograms => bind_congr fun parts => bind_congr fun found => ?_
  cases found with
  | false => simp
  | true =>
    rw [if_pos rfl, if_pos rfl, bind_assoc]
    refine bind_congr fun k => ?_
    by_cases hk : k = .endOfText <;> simp [hk]

theorem tidy_unpointed : Tidy unpointed :=
  .bind tidy_programHead fun _ => .bind tidy_constSection fun _ => .bind tidy_varSection fun _ =>
    tidy_get (fun _ n _ => do
        let subprograms ← subprogramsWithin n
        let (parts, q) ← block
        return ⟨_, _, _, subprograms, ⟨_, _, parts, q⟩⟩) (fun _ => rfl) fun _ n _ =>
      .bind (tidy_subprogramsWithin n) fun _ => .bind tidy_block fun _ => .pure _

theorem tidy_pointed : Tidy pointed :=
  .bind (tidy_demand _ _) fun _ => .ite (.bind tidy_kind fun _ =>
    .ite (tidy_recordExpected _) (.pure _)) (.pure _)

theorem tidy_program : Tidy program := by
  rw [program_eq]
  exact .bind tidy_unpointed fun _ => .bind tidy_pointed fun _ => .pure _

theorem built_program : Built program := tidy_program.made

/-- Why the reading of a program stops before the end of the text. -/
def trailing : List String := ["'.' after program body", "end of file after '.'"]

variable {s' : Session} {what : String} {e : LexError} {p : Program}

theorem recordExpected_eq_ok (h : recordExpected what s = .ok () s') :
    s.input.kind ≠ .invalid ∧ s' = { s with
      notes := s.notes ++ [.fault ⟨.expected what s.input.current, s.input.position⟩] } := by
  change record (s.input.unexpected what) s = _ at h
  unfold Input.unexpected at h
  split at h
  · cases h
  · next hkind =>
    cases h
    exact ⟨hkind, rfl⟩

theorem demand_eq_ok {k : Token.Kind} {found : Bool} (h : demand k what s = .ok found s') :
    found = true ∧ s' = { s with input := s.input.advance } ∨
      found = false ∧ recordExpected what s = .ok () s' := by
  unfold demand at h
  by_cases hk : s.input.kind = k
  · have haccept : accept k s = .ok true { s with input := s.input.advance } := by
      unfold accept
      rw [kind_bind, if_pos hk]
      rfl
    rw [bind_of_ok haccept] at h
    cases h
    exact .inl ⟨rfl, rfl⟩
  · rw [bind_of_ok (accept_of_ne hk), if_neg Bool.false_ne_true] at h
    obtain ⟨_, s₁, hrecord, h⟩ := bind_eq_ok h
    cases h
    exact .inr ⟨rfl, hrecord⟩

theorem pointed_eq_ok (h : pointed s = .ok () s') :
    s'.input.kind = .endOfText ∧ s'.notes = s.notes ∨
      s'.input.kind ≠ .invalid ∧ ∃ what ∈ trailing, s'.notes =
        s.notes ++ [.fault ⟨.expected what s'.input.current, s'.input.position⟩] := by
  obtain ⟨found, s₁, hdemand, h⟩ := bind_eq_ok h
  rcases demand_eq_ok hdemand with ⟨rfl, rfl⟩ | ⟨rfl, hrecord⟩
  · rw [if_pos rfl, kind_bind] at h
    by_cases hend : s.input.advance.kind = .endOfText
    · rw [if_neg (not_not_intro hend)] at h
      cases h
      exact .inl ⟨hend, rfl⟩
    · rw [if_pos hend] at h
      obtain ⟨hkind, rfl⟩ := recordExpected_eq_ok h
      exact .inr ⟨hkind, _, mem_cons_of_mem _ mem_cons_self, rfl⟩
  · rw [if_neg Bool.false_ne_true] at h
    cases h
    obtain ⟨hkind, rfl⟩ := recordExpected_eq_ok hrecord
    exact .inr ⟨hkind, _, mem_cons_self, rfl⟩

theorem program_eq_ok (h : program s = .ok p s') :
    ∃ s₁, unpointed s = .ok p s₁ ∧ pointed s₁ = .ok () s' := by
  rw [program_eq] at h
  obtain ⟨q, s₁, hq, h⟩ := bind_eq_ok h
  obtain ⟨_, s₂, hpointed, h⟩ := bind_eq_ok h
  cases h
  exact ⟨s₁, hq, hpointed⟩

theorem eq_ok_of_lift {α : Type} {x : Recover α} {a : α} (h : (liftM x : Phrase α) s = .ok a s') :
    x s = .ok a s' := by
  change (monadLift x : Phrase α) s = _ at h
  rw [Recover.lift_apply] at h
  cases hx : x s with
  | ok b u =>
    rw [hx] at h
    cases h
    rfl
  | error e u =>
    rw [hx] at h
    cases h

theorem lift_of_error {α : Type} {x : Recover α} (h : x s = .error e s') :
    (liftM x : Phrase α) s = .error (.lexical e) s' := by
  change (monadLift x : Phrase α) s = _
  rw [Recover.lift_apply, h]

theorem program_eq_error (hs : s.Valid) (h : program s = .error e s') :
    s.input.last.kind = .invalid ∧ e = .ofToken s.input.last := by
  refine built_program.blames hs (lift_of_error h)

/-- Before input that is no token, reading gives up for good or leaves some token before it. -/
theorem left_of_program_ok (hlast : s.input.last.kind = .invalid) (h : program s = .ok p s') :
    s'.input.tokens ≠ [] := by
  intro hnil
  have hle : s' ≤ s := built_program.advances.of_ok (lift_of_ok h)
  have hkind : s'.input.kind = .invalid := by
    unfold Input.kind Input.current
    rw [hnil, hle.1.2]
    exact hlast
  obtain ⟨s₁, -, hpointed⟩ := program_eq_ok h
  rcases pointed_eq_ok hpointed with ⟨hend, -⟩ | ⟨hvalid, -⟩
  · cases hkind.symm.trans hend
  · exact hvalid hkind

end Recover

/-- The tokens that are left where the reading of a program stops. -/
def unread (tokens : List Token) : List Token :=
  match Recover.program ⟨.ofTokens tokens, []⟩ with
  | .ok _ s | .error _ s => s.input.tokens

theorem Input.ofTokens_isLast (tokens : List Token) :
    (Input.ofTokens tokens).last.kind.isLast = true := by
  unfold Input.ofTokens
  split
  · next t h =>
    obtain ⟨hlast, -⟩ := find?_eq_some_iff_append.mp h
    exact hlast
  · rfl

section Ends

variable {ts : List Token} (hts : ∀ t ∈ ts, t.kind.isLast = false)
include hts

theorem valid_of_inner (last : Token) (notes : List Note) : Session.Valid ⟨⟨ts, last⟩, notes⟩ := by
  intro t ht hkind
  have hother := hts t ht
  rw [hkind] at hother
  cases hother

theorem Input.ofTokens_inner :
    ∃ last : Token, last.kind = .endOfText ∧ ofTokens ts = ⟨ts, last⟩ := by
  have hbefore : ts.takeWhile (fun t => !t.kind.isLast) = ts :=
    takeWhile_eq_self_iff.mpr fun t ht => by rw [hts t ht]; rfl
  have hfind : ts.find? (fun t => t.kind.isLast) = none :=
    find?_eq_none.mpr fun t ht => by rw [hts t ht]; nofun
  unfold ofTokens
  rw [hbefore, hfind]
  exact ⟨_, rfl, rfl⟩

theorem program_before_invalid {bad : Token} (hbad : bad.kind = .invalid) :
    unread ts = [] ∧ (∃ s, Recover.program ⟨⟨ts, bad⟩, []⟩ = .error (.ofToken bad) s) ∨
      ∃ u us p notes, ∃ what ∈ Recover.trailing, unread ts = u :: us ∧
        Recover.program ⟨⟨ts, bad⟩, []⟩ =
          .ok p ⟨⟨u :: us, bad⟩, notes ++ [.fault ⟨.expected what u, u.position⟩]⟩ := by
  obtain ⟨last, hlast, hinner⟩ := Input.ofTokens_inner hts
  have hvalid := valid_of_inner hts bad []
  -- Before the end of a text nothing is refused, so reading succeeds.
  obtain ⟨q, s, hs⟩ : ∃ q s, Recover.program ⟨⟨ts, last⟩, []⟩ = .ok q s := by
    cases h : Recover.program ⟨⟨ts, last⟩, []⟩ with
    | ok q s => exact ⟨q, s, rfl⟩
    | error e s =>
      have hinvalid := (Recover.program_eq_error (valid_of_inner hts last []) h).1
      cases hlast.symm.trans hinvalid
  have hunread : unread ts = s.input.tokens := by
    unfold unread
    rw [hinner, hs]
  have hgood : (liftM Recover.program : Phrase Program) ⟨⟨ts, last⟩, []⟩ = .ok q s :=
    Recover.lift_of_ok hs
  have halike : Alike (liftM Recover.program : Phrase Program) ⟨⟨ts, bad⟩, []⟩ bad last :=
    Recover.built_program.steady _ (by rw [hbad]; rfl) (by rw [hlast]; rfl)
  rcases halike with ⟨hspent, hspent'⟩ | ⟨r, hr, hr₁, hr₂⟩
  · left
    change left ((liftM Recover.program : Phrase Program) ⟨⟨ts, last⟩, []⟩) = [] at hspent'
    rw [hgood] at hspent'
    refine ⟨hunread.trans hspent', ?_⟩
    cases h : Recover.program ⟨⟨ts, bad⟩, []⟩ with
    | error e s₁ =>
      obtain ⟨-, rfl⟩ := Recover.program_eq_error hvalid h
      exact ⟨s₁, rfl⟩
    | ok p s₁ =>
      change left ((liftM Recover.program : Phrase Program) ⟨⟨ts, bad⟩, []⟩) = [] at hspent
      rw [Recover.lift_of_ok h] at hspent
      exact absurd hspent (Recover.left_of_program_ok hbad h)
  · right
    have hr₂ := hgood.symm.trans hr₂
    cases r with
    | error e w => cases hr₂
    | ok p w =>
      obtain ⟨⟨rest, end'⟩, notes⟩ := w
      cases hr₂
      obtain ⟨u, us, rfl⟩ : ∃ u us, rest = u :: us := exists_cons_of_ne_nil hr
      have hok : Recover.program ⟨⟨ts, bad⟩, []⟩ = .ok q ⟨⟨u :: us, bad⟩, notes⟩ :=
        Recover.eq_ok_of_lift hr₁
      have hle := Recover.built_program.advances.of_ok (Recover.lift_of_ok hok)
      have hinside : u.kind.isLast = false := hts u (hle.1.1.subset mem_cons_self)
      obtain ⟨s₁, -, hpointed⟩ := Recover.program_eq_ok hok
      rcases Recover.pointed_eq_ok hpointed with ⟨hend, -⟩ | ⟨-, what, hwhat, hnotes⟩
      · rw [show u.kind = .endOfText from hend] at hinside
        cases hinside
      · rw [show notes = _ from hnotes] at hok
        exact ⟨u, us, q, s₁.notes, what, hwhat, hunread, hok⟩

end Ends

theorem Lexeme.read_kind_ne_endOfText (c : Char) (cs : List Char) :
    (read c cs).kind ≠ .endOfText := by
  unfold read
  split
  · unfold readQuoted
    dsimp only
    split <;> nofun
  split
  · unfold readNumber
    dsimp only
    split <;> nofun
  split
  · unfold readWord
    dsimp only
    split <;> nofun
  split <;> nofun

theorem scan_ended (source : String) : ∃ ts last, scan source = ts ++ [last] ∧
    last.kind.isLast = true ∧ ∀ t ∈ ts, t.kind.isLast = false := by
  unfold scan
  fun_induction scanFrom .start source.toList with
  | case1 | case2 => exact ⟨[], _, rfl, rfl, by simp⟩
  | case3 p cs q c rest _ l t hinvalid =>
    refine ⟨[], t, rfl, ?_, by simp⟩
    rw [show t.kind = .invalid from hinvalid]
    rfl
  | case4 p cs q c rest _ l t hvalid ih =>
    obtain ⟨ts, last, hscan, hlast, hts⟩ := ih
    refine ⟨t :: ts, last, by rw [hscan]; rfl, hlast, forall_mem_cons.mpr ⟨?_, hts⟩⟩
    have hend : t.kind ≠ .endOfText := Lexeme.read_kind_ne_endOfText c rest
    simp [Token.Kind.isLast, hend, show t.kind ≠ .invalid from hvalid]

theorem parse_of_error {e : LexError} (h : Recover.program ⟨.ofTokens tokens, []⟩ = .error e s) :
    parse tokens = .error e := by
  unfold parse readProgram
  rw [h]
  rfl

theorem parse_of_ok {p : Program} (h : Recover.program ⟨.ofTokens tokens, []⟩ = .ok p s) :
    parse tokens = .ok (p, s.notes.filterMap Note.error?) := by
  unfold parse readProgram
  rw [h]
  rfl

theorem program_of_parse {p : Program} {errors : List SyntaxError}
    (h : parse tokens = .ok (p, errors)) : ∃ s, Recover.program ⟨.ofTokens tokens, []⟩ = .ok p s ∧
      s.notes.filterMap Note.error? = errors := by
  cases hread : Recover.program ⟨.ofTokens tokens, []⟩ with
  | error e s =>
    rw [parse_of_error hread] at h
    cases h
  | ok q s =>
    rw [parse_of_ok hread] at h
    cases h
    exact ⟨s, rfl, rfl⟩

/-- Reading fails exactly if the text ends in input that is no token and the tokens before it are
all taken; it fails with that input. If some are left, the first of them is reported as a fault of
grammar after all others, and there is no C program. -/
theorem lexical_error_fatal_iff (source : String) (level : Nat) :
    (∀ e, parse (scan source) = .error e ↔
      scanError? (scan source) = some e ∧ unread (scan source).dropLast = []) ∧
    ∀ e, scanError? (scan source) = some e →
      unread (scan source).dropLast = [] ∧ compile source level = .error (.lexical e) ∨
      ∃ u us errors, ∃ what ∈ Recover.trailing, unread (scan source).dropLast = u :: us ∧
        compile source level = .error (.diagnostics (Diagnostic.sort
          ((errors ++ [⟨.expected what u, u.position⟩]).map Diagnostic.ofSyntaxError))) := by
  obtain ⟨ts, last, hscan, hlast, hts⟩ := scan_ended source
  have hinput := Input.ofTokens_ended hts hlast
  unfold compile
  rw [hscan, List.dropLast_concat]
  have herror : scanError? (ts ++ [last]) =
      if last.kind = .invalid then some (.ofToken last) else none := by
    unfold scanError?
    rw [List.getLast?_concat]
  rw [herror]
  by_cases hbad : last.kind = .invalid
  · rw [if_pos hbad]
    rcases program_before_invalid hts hbad with
      ⟨hread, s, hs⟩ | ⟨u, us, p, notes, what, hwhat, hunread, hs⟩
    · rw [parse_of_error (hinput ▸ hs), hread]
      constructor
      · intro e
        simp
      · rintro e ⟨⟩
        exact .inl ⟨rfl, rfl⟩
    · have herrors : (notes ++ [Note.fault ⟨.expected what u, u.position⟩]).filterMap Note.error? =
          notes.filterMap Note.error? ++ [⟨.expected what u, u.position⟩] := by
        rw [List.filterMap_append]
        rfl
      rw [parse_of_ok (hinput ▸ hs), hunread, herrors]
      constructor
      · intro e
        simp
      · rintro e ⟨⟩
        refine .inr ⟨u, us, notes.filterMap Note.error?, what, hwhat, rfl, ?_⟩
        cases h : notes.filterMap Note.error? ++ [⟨.expected what u, u.position⟩] with
        | nil => simp at h
        | cons e es => rfl
  · rw [if_neg hbad]
    refine ⟨fun e => ⟨fun h => ?_, nofun⟩, nofun⟩
    cases hs : Recover.program ⟨.ofTokens (ts ++ [last]), []⟩ with
    | ok p s =>
      rw [parse_of_ok hs] at h
      cases h
    | error e' s =>
      rw [hinput] at hs
      exact absurd (Recover.program_eq_error (valid_of_inner hts last []) hs).1 hbad

/-- A number sign within the program. -/
theorem number_sign_fatal :
    parse (scan "program p; begin # end.") = .error ⟨.unexpectedCharacter, "#", ⟨1, 18⟩⟩ :=
  ((lexical_error_fatal_iff "program p; begin # end." 0).1 _).mpr (by decide +kernel)

/-- A number sign behind a name that should have been a point. -/
theorem number_sign_not_reached :
    ¬ ((∃ e, parse (scan "program p; begin end x #") = .error e) ↔
      ∃ t, (scan "program p; begin end x #").getLast? = some t ∧ t.kind = .invalid) := by
  have hlast : ((scan "program p; begin end x #").getLast?.map Token.kind) = some .invalid := by
    decide +kernel
  have hread : (parse (scan "program p; begin end x #")).isOk = true := by decide +kernel
  obtain ⟨t, ht, hkind⟩ := Option.map_eq_some_iff.mp hlast
  intro h
  obtain ⟨e, he⟩ := h.mpr ⟨t, ht, hkind⟩
  rw [he] at hread
  cases hread

end MiniPascal
