import MiniPascal.Proofs.Confined
import MiniPascal.Proofs.FatalFaults
import Mathlib.Data.List.Chain

/-!
# Recovery isolates broken statements

A sequence of statements is read in segments. A segment that is a whole statement is read as that
statement, and a broken one costs exactly one fault.
-/

namespace MiniPascal

open List

/-! ## Notes are only added to -/

section Notes

variable {α : Type}

/-- What a reader does depends on nothing that was noted before, and it adds the same notes. -/
def Adds (x : Phrase α) : Prop :=
  ∀ i, (∃ a i' more, ∀ notes, x ⟨i, notes⟩ = .ok a ⟨i', notes ++ more⟩) ∨
    ∃ e i' more, ∀ notes, x ⟨i, notes⟩ = .error e ⟨i', notes ++ more⟩

variable {x : Phrase α}

theorem Adds.of_next (g : Input → α) (next : Input → Input)
    (hx : ∀ i notes, x ⟨i, notes⟩ = .ok (g i) ⟨next i, notes⟩) : Adds x := by
  refine fun i => .inl ⟨g i, next i, [], fun notes => ?_⟩
  rw [hx, append_nil]

theorem adds_refuse : Adds Step.refuse := by
  intro i
  by_cases h : i.kind = .invalid
  · refine .inr ⟨.lexical (.ofToken i.current), i, [], fun notes => ?_⟩
    rw [refuse_apply, if_pos h, append_nil]
  · refine .inl ⟨(), i, [], fun notes => ?_⟩
    rw [refuse_apply, if_neg h, append_nil]

theorem Made.adds (h : Made x) : Adds x := by
  induction h with
  | pure a => exact .of_next (fun _ => a) id fun _ _ => rfl
  | current => exact .of_next Input.current id fun _ _ => rfl
  | count => exact .of_next (fun i => i.tokens.length) id fun _ _ => rfl
  | begins => exact .of_next Input.beginsStatement id fun _ _ => rfl
  | advance => exact .of_next (fun _ => ()) Input.advance fun _ _ => rfl
  | skip stops => exact .of_next (fun _ => ()) (Input.skipTo · stops) fun _ _ => rfl
  | note n => exact fun i => .inl ⟨(), i, [n], fun _ => rfl⟩
  | refuse => exact adds_refuse
  | giveUp e =>
    refine fun i => .inr ⟨.phrase e, i, [], fun notes => ?_⟩
    rw [append_nil]
    rfl
  | @bind _ _ x f _ _ ihx ihf =>
    intro i
    rcases ihx i with ⟨a, i', more, hx⟩ | ⟨e, i', more, hx⟩
    · rcases ihf a i' with ⟨b, j, more', hf⟩ | ⟨e, j, more', hf⟩
      · refine .inl ⟨b, j, more ++ more', fun notes => ?_⟩
        rw [bind_of_ok (hx notes), hf, append_assoc]
      · refine .inr ⟨e, j, more ++ more', fun notes => ?_⟩
        rw [bind_of_ok (hx notes), hf, append_assoc]
    · exact .inr ⟨e, i', more, fun notes => bind_of_error (hx notes) f⟩
  | @attempt _ _ p f _ _ _ hlexical ihp ihok ihphrase =>
    intro i
    have hgo : ∀ {r : Except Fault _} {i' : Input} {more : List Note}, Adds (f r) →
        (∀ notes, (Step.attempt p >>= f) ⟨i, notes⟩ = f r ⟨i', notes ++ more⟩) →
        (∃ b j more, ∀ notes, (Step.attempt p >>= f) ⟨i, notes⟩ = .ok b ⟨j, notes ++ more⟩) ∨
          ∃ e j more, ∀ notes, (Step.attempt p >>= f) ⟨i, notes⟩ = .error e ⟨j, notes ++ more⟩ := by
      intro r i' more hf hrun
      rcases hf i' with ⟨b, j, more', hf⟩ | ⟨e, j, more', hf⟩
      · refine .inl ⟨b, j, more ++ more', fun notes => ?_⟩
        rw [hrun, hf, append_assoc]
      · refine .inr ⟨e, j, more ++ more', fun notes => ?_⟩
        rw [hrun, hf, append_assoc]
    rcases ihp i with ⟨a, i', more, hp⟩ | ⟨e, i', more, hp⟩
    · exact hgo (ihok a) fun notes => attempt_bind_ok (hp notes)
    · cases e with
      | phrase e => exact hgo (ihphrase e) fun notes => attempt_bind_error (hp notes)
      | lexical e =>
        refine .inr ⟨.lexical e, i', more, fun notes => ?_⟩
        rw [attempt_bind_error (hp notes), hlexical]

theorem Adds.of_ok (hx : Adds x) {i i' : Input} {a : α} {more : List Note}
    (h : x ⟨i, []⟩ = .ok a ⟨i', more⟩) (notes : List Note) :
    x ⟨i, notes⟩ = .ok a ⟨i', notes ++ more⟩ := by
  rcases hx i with ⟨b, j, more', hb⟩ | ⟨e, j, more', he⟩
  · rw [hb, nil_append] at h
    cases h
    exact hb notes
  · rw [he] at h
    cases h

end Notes

/-! ## Segments -/

/-- Tokens that are read as one statement, to their end and without a fault, wherever a statement
may be closed behind them. -/
def Whole (us : List Token) : Prop :=
  ∀ ⦃t : Token⦄, t.kind.Closes → ∀ rest last, ∃ s more,
    Phrase.statement ⟨⟨us ++ t :: rest, last⟩, []⟩ = .ok s ⟨⟨t :: rest, last⟩, more⟩ ∧
      more.filterMap Note.error? = []

/-- The kinds of tokens that end a statement or the text, or that begin a statement. -/
def landmarks : List Token.Kind :=
  [.mark .semicolon, .keyword .endKw, .keyword .beginKw, .keyword .ifKw, .keyword .forKw,
   .keyword .whileKw, .keyword .exitKw, .invalid, .endOfText]

/-- The kinds of tokens before which a name begins a statement. -/
def openers : List Token.Kind := [.mark .assign, .mark .openBracket, .mark .openParen]

/-- No name that begins a statement stands before the last token. -/
def NoOpening (us : List Token) : Prop :=
  us.IsChain fun u v => u.kind = .identifier → v.kind ∉ openers

/-- Tokens that are no whole statement and that do not look like the start of another one either,
except at their first token. -/
structure Broken (us : List Token) : Prop where
  nonempty : us ≠ []
  notWhole : ¬ Whole us
  plain : ∀ u ∈ us, u.kind ∉ landmarks
  noOpening : NoOpening us.tail

/-- Tokens among which no statement ends or begins. -/
structure Skippable (us : List Token) : Prop where
  plain : ∀ u ∈ us, u.kind ∉ landmarks
  noOpening : NoOpening us

theorem Skippable.of_suffix {us vs : List Token} (h : Skippable us) (hvs : vs <:+ us) :
    Skippable vs := ⟨fun v hv => h.plain v (hvs.subset hv), h.noOpening.suffix hvs⟩

theorem Broken.skippable {us vs : List Token} (h : Broken us) (hvs : vs <:+ us.tail) :
    Skippable vs :=
  Skippable.of_suffix ⟨fun u hu => h.plain u (mem_of_mem_tail hu), h.noOpening⟩ hvs

theorem Broken.skippable_of_ne {us : List Token} (h : Broken us)
    (hname : ∀ u ∈ us.head?, u.kind ≠ .identifier) : Skippable us := by
  refine ⟨h.plain, ?_⟩
  cases us with
  | nil => exact isChain_nil
  | cons u us =>
    refine isChain_cons.mpr ⟨fun v _ hu => absurd hu (hname u rfl), h.noOpening⟩

/-! ## Skipping -/

/-- What is left behind a token that closes a statement: a semicolon is taken, an `end` is not. -/
def past (t : Token) (rest : List Token) : List Token :=
  if t.kind = .mark .semicolon then rest else t :: rest

namespace Recover

variable {t : Token} {us : List Token}

theorem skipTo_of_mem {ts : List Token} {stops : List Token.Kind} (ht : t.kind ∈ stops)
    (hvalid : t.kind ≠ .invalid) (last : Token) (notes : List Note) :
    skipTo stops ⟨⟨t :: ts, last⟩, notes⟩ =
      .ok () ⟨⟨t :: ts, last⟩, notes ++ [.resumed t.position]⟩ := by
  have hstay : (Input.mk (t :: ts) last).skipTo stops = ⟨t :: ts, last⟩ := by
    simp [Input.skipTo, ht]
  change resume ⟨(Input.mk (t :: ts) last).skipTo stops, notes⟩ = _
  rw [hstay]
  unfold resume
  rw [get_bind]
  exact if_neg hvalid ▸ rfl

theorem skipStatementWithin_cons (hstop : t.kind ∈ statementStops) (hvalid : t.kind ≠ .invalid)
    (n : Nat) (ts : List Token) (last : Token) (notes : List Note) :
    skipStatementWithin (n + 1) ⟨⟨t :: ts, last⟩, notes⟩ =
      if t.kind = .mark .semicolon then .ok () ⟨⟨ts, last⟩, notes ++ [.resumed t.position]⟩
      else if t.kind = .identifier ∧ ¬ (Input.mk (t :: ts) last).beginsStatement then
        skipStatementWithin n ⟨⟨ts, last⟩, notes ++ [.resumed t.position]⟩
      else .ok () ⟨⟨t :: ts, last⟩, notes ++ [.resumed t.position]⟩ := by
  rw [skipStatementWithin, bind_of_ok (skipTo_of_mem hstop hvalid last notes), get_bind]
  change (if t.kind = .mark .semicolon then advance
    else if t.kind = .identifier ∧ ¬ (Input.mk (t :: ts) last).beginsStatement then
      advance >>= fun _ => skipStatementWithin n
    else pure () : Recover Unit) _ = _
  split
  · rfl
  · split <;> rfl

theorem beginsStatement_eq_false {u : Token} (hu : Skippable (u :: us)) (ht : t.kind.Closes)
    (rest : List Token) (last : Token) :
    (Input.mk (u :: (us ++ t :: rest)) last).beginsStatement = false := by
  have hplain := hu.plain u mem_cons_self
  have hnext : u.kind = .identifier →
      (Input.mk (u :: (us ++ t :: rest)) last).nextKind ∉ openers := by
    intro hname
    cases us with
    | nil =>
      change t.kind ∉ openers
      rcases ht with ht | ht <;> rw [ht] <;> decide
    | cons v vs => exact (isChain_cons_cons.mp hu.noOpening).1 hname
  have hkind : (Input.mk (u :: (us ++ t :: rest)) last).kind = u.kind := rfl
  unfold Input.beginsStatement
  rw [hkind]
  generalize u.kind = k at hplain hnext
  split
  case h_6 =>
    have hopen := hnext rfl
    simp only [openers, mem_cons, not_mem_nil, or_false, not_or] at hopen
    simp [hopen]
  case h_7 => rfl
  all_goals exact absurd (by decide) hplain

theorem skipStatementWithin_past (hus : Skippable us) (ht : t.kind.Closes) (rest : List Token)
    (last : Token) {n : Nat} (hn : us.length < n) (notes : List Note) :
    ∃ more, skipStatementWithin n ⟨⟨us ++ t :: rest, last⟩, notes⟩ =
        .ok () ⟨⟨past t rest, last⟩, notes ++ more⟩ ∧ more.filterMap Note.error? = [] := by
  obtain ⟨n, rfl⟩ := Nat.exists_eq_add_one_of_ne_zero (Nat.ne_zero_of_lt hn)
  induction us generalizing n notes with
  | nil =>
    have hstop : t.kind ∈ statementStops := by rcases ht with ht | ht <;> rw [ht] <;> decide
    have hvalid : t.kind ≠ .invalid := by rcases ht with ht | ht <;> rw [ht] <;> decide
    refine ⟨[.resumed t.position], ?_, rfl⟩
    rw [nil_append, skipStatementWithin_cons hstop hvalid]
    unfold past
    rcases ht with ht | ht <;> simp [ht]
  | cons u us ih =>
    have hrest : Skippable us := hus.of_suffix (suffix_cons u us)
    rw [length_cons] at hn
    by_cases hname : u.kind = .identifier
    -- The skipping pauses at a name that begins nothing, and takes it.
    · have hstop : u.kind ∈ statementStops := by rw [hname]; decide
      have hvalid : u.kind ≠ .invalid := by rw [hname]; nofun
      obtain ⟨m, rfl⟩ := Nat.exists_eq_add_one_of_ne_zero (show n ≠ 0 by omega)
      obtain ⟨more, hmore, herrors⟩ := ih hrest (notes ++ [.resumed u.position]) m (by omega)
      refine ⟨.resumed u.position :: more, ?_, herrors⟩
      rw [cons_append, skipStatementWithin_cons hstop hvalid,
        beginsStatement_eq_false hus ht rest last]
      simp [hname, hmore]
    · have hstop : u.kind ∉ statementStops := by
        have hplain := hus.plain u mem_cons_self
        simp only [landmarks, mem_cons, not_or] at hplain
        simp [statementStops, hplain, hname]
      obtain ⟨more, hmore, herrors⟩ := ih hrest notes n (by omega)
      refine ⟨more, ?_, herrors⟩
      rw [← hmore]
      exact Parse.bind_congr (skipTo_cons hstop (us ++ t :: rest) last notes) fun _ _ _ => rfl

theorem skipStatement_past (hus : Skippable us) (ht : t.kind.Closes) (rest : List Token)
    (last : Token) (notes : List Note) : ∃ more, skipStatement ⟨⟨us ++ t :: rest, last⟩, notes⟩ =
        .ok () ⟨⟨past t rest, last⟩, notes ++ more⟩ ∧ more.filterMap Note.error? = [] := by
  refine skipStatementWithin_past hus ht rest last ?_ notes
  rw [length_append]
  omega

/-! ## One round for a segment -/

section Rounds

variable {us : List Token} {t : Token} (ht : t.kind.Closes) (rest : List Token) (last : Token)
  (notes : List Note)
include ht

theorem afterStatement_past :
    afterStatement ⟨⟨t :: rest, last⟩, notes⟩ = .ok () ⟨⟨past t rest, last⟩, notes⟩ := by
  unfold past
  rcases ht with ht | ht
  · rw [if_pos ht]
    exact afterStatement_cons ht
  · rw [if_neg (by rw [ht]; nofun)]
    exact afterStatement_of_end ht

variable {a : Statement} {u : Token}

/-- Behind a statement that ends too early, the fault is noted at the next token, and the rest of
the segment is skipped. -/
theorem afterStatement_early (hus : Skippable (u :: us)) :
    ∃ more, afterStatement ⟨⟨u :: us ++ t :: rest, last⟩, notes⟩ = .ok () ⟨⟨past t rest, last⟩,
          notes ++ .fault ⟨.expected "';' after statement" u, u.position⟩ :: more⟩ ∧
      more.filterMap Note.error? = [] := by
  obtain ⟨more, hmore, herrors⟩ := skipStatement_past hus ht rest last
    (notes ++ [.fault ⟨.expected "';' after statement" u, u.position⟩])
  refine ⟨more, ?_, herrors⟩
  have hplain := hus.plain u mem_cons_self
  simp only [landmarks, mem_cons, not_mem_nil, or_false, not_or] at hplain
  have hlast : u.kind.isLast = false := by simp [Token.Kind.isLast, hplain]
  rw [append_cons notes, ← hmore]
  exact afterStatement_of_other hplain.1 hplain.2.1 hlast
    (beginsStatement_eq_false hus ht rest last)

/-- Behind a fault in a segment of which at least one token was taken or can be skipped, the rest of
the segment is skipped. -/
theorem afterFault_past (hus : Skippable us) (e : SyntaxError) {before : Nat}
    (hbefore : (past t rest).length < before) :
    ∃ more, afterFault (.phrase e) before ⟨⟨us ++ t :: rest, last⟩, notes⟩ =
        .ok () ⟨⟨past t rest, last⟩, notes ++ .fault e :: more⟩ ∧
      more.filterMap Note.error? = [] := by
  obtain ⟨more, hmore, herrors⟩ := skipStatement_past hus ht rest last (notes ++ [.fault e])
  refine ⟨more, ?_, herrors⟩
  have hrecord : record (.phrase e) ⟨⟨us ++ t :: rest, last⟩, notes⟩ =
      .ok () ⟨⟨us ++ t :: rest, last⟩, notes ++ [.fault e]⟩ := rfl
  have hguard : ¬ ((past t rest).length = before ∧
      (Input.mk (past t rest) last).kind ≠ .keyword .endKw) :=
    fun h => absurd h.1 (Nat.ne_of_lt hbefore)
  unfold afterFault
  rw [bind_of_ok hrecord, bind_of_ok hmore, get_bind, if_neg hguard, ← append_cons]
  rfl

omit ht in
theorem nextStatement_eq {s : Session} (hkind : s.input.kind ∉
    [Token.Kind.mark .semicolon, .keyword .endKw, .endOfText]) :
    nextStatement Phrase.statement s = (attempt Phrase.statement >>= fun
      | .ok a => do
        afterStatement
        return some (a :: ·)
      | .error e => do
        afterFault e s.input.tokens.length
        return some id) s := by
  unfold nextStatement
  rw [kind_bind]
  generalize s.input.kind = k at hkind
  split
  case h_4 => rfl
  all_goals exact absurd (by decide) hkind

omit ht in
theorem nextStatement_of_ok {s s' s'' : Session}
    (hkind : s.input.kind ∉ [Token.Kind.mark .semicolon, .keyword .endKw, .endOfText])
    (hread : Phrase.statement s = .ok a s') (hafter : afterStatement s' = .ok () s'') :
    nextStatement Phrase.statement s = .ok (some (a :: ·)) s'' := by
  rw [nextStatement_eq hkind, bind_of_ok (attempt_of_ok hread)]
  dsimp only
  rw [bind_of_ok hafter]
  rfl

omit ht in
theorem nextStatement_of_error {s s' s'' : Session} {e : Fault} (hkind : s.input.kind ∉
    [Token.Kind.mark .semicolon, .keyword .endKw, .endOfText])
    (hread : Phrase.statement s = .error e s')
    (hafter : afterFault e s.input.tokens.length s' = .ok () s'') :
    nextStatement Phrase.statement s = .ok (some id) s'' := by
  rw [nextStatement_eq hkind, bind_of_ok (attempt_of_error hread)]
  dsimp only
  rw [bind_of_ok hafter]
  rfl

theorem nextStatement_of_whole (hwhole : Whole us) (hne : us ≠ []) :
    ∃ s more, Phrase.statement ⟨⟨us ++ t :: rest, last⟩, []⟩ = .ok s ⟨⟨t :: rest, last⟩, more⟩ ∧
      nextStatement Phrase.statement ⟨⟨us ++ t :: rest, last⟩, notes⟩ =
        .ok (some (s :: ·)) ⟨⟨past t rest, last⟩, notes ++ more⟩ ∧
      more.filterMap Note.error? = [] := by
  obtain ⟨s, more, hread, herrors⟩ := hwhole ht rest last
  refine ⟨s, more, hread, ?_, herrors⟩
  have hnoted : Phrase.statement ⟨⟨us ++ t :: rest, last⟩, notes⟩ =
      .ok s ⟨⟨t :: rest, last⟩, notes ++ more⟩ := Phrase.built_statement.adds.of_ok hread notes
  refine nextStatement_of_ok (fun hkind => ?_) hnoted (afterStatement_past ht rest last _)
  simp only [mem_cons, not_mem_nil, or_false] at hkind
  -- Before a token that may follow a statement no token is taken, and before the end none is read.
  rcases hkind with hkind | hkind | hkind
  case inr.inr =>
    rw [statement_of_other _ (by rw [hkind]; decide)] at hnoted
    cases hnoted
  all_goals
    rw [statement_of_empty _ (by rw [hkind]; decide)] at hnoted
    injection hnoted with _ hsession
    injection hsession with hinput
    injection hinput with htokens
    exact hne (append_left_eq_self.mp htokens)

omit ht in
theorem length_past_lt (t : Token) (hne : us ≠ []) :
    (past t rest).length < (us ++ t :: rest).length := by
  have hlength := length_pos_iff.mpr hne
  unfold past
  rw [length_append, length_cons]
  split
  · omega
  · rw [length_cons]
    omega

omit ht in
theorem suffix_of_eats {x : Parse Statement} (hx : Parse.Eats .identifier x) {vs ws : List Token}
    (hu : u.kind = .identifier) (hws : ws <:+ u :: vs)
    (hrun : (∃ a, x ⟨u :: vs ++ t :: rest, last⟩ = .ok a ⟨ws ++ t :: rest, last⟩) ∨
      ∃ e, x ⟨u :: vs ++ t :: rest, last⟩ = .error e ⟨ws ++ t :: rest, last⟩) : ws <:+ vs := by
  obtain ⟨y, hy, heq⟩ := hx u (vs ++ t :: rest) last hu
  have hle := hy ⟨vs ++ t :: rest, last⟩
  rw [← heq] at hle
  have hlength : (ws ++ t :: rest).length ≤ (vs ++ t :: rest).length := by
    rcases hrun with ⟨a, hrun⟩ | ⟨e, hrun⟩ <;> rw [← cons_append, hrun] at hle <;>
      exact hle.1.length_le
  rw [length_append, length_append] at hlength
  rcases suffix_cons_iff.mp hws with rfl | hsuffix
  · rw [length_cons] at hlength
    omega
  · exact hsuffix

omit ht in
theorem whole_of_name {t : Token} {vs rest : List Token} {last : Token}
    (hu : u.kind = .identifier) (hvalid : ∀ v ∈ u :: vs, v.kind ≠ .invalid) (ht : t.kind.Closes)
    (hok : Parse.assignmentOrCall ⟨u :: vs ++ t :: rest, last⟩ = .ok a ⟨t :: rest, last⟩) :
    Whole (u :: vs) := by
  intro t' ht' rest' last'
  have hread := (Parse.confined_assignmentOrCall (u :: vs)).elsewhere hvalid ht hok ht' rest' last'
  refine ⟨a, [], ?_, rfl⟩
  rw [statement_of_name ⟨⟨u :: vs ++ t' :: rest', last'⟩, []⟩ hu]
  exact Parse.lift_of_ok hread []

/-- A broken statement costs one fault, which is found in it or right behind it. -/
theorem nextStatement_of_broken (hbroken : Broken us) :
    ∃ add e more, nextStatement Phrase.statement ⟨⟨us ++ t :: rest, last⟩, notes⟩ =
        .ok (some add) ⟨⟨past t rest, last⟩, notes ++ .fault e :: more⟩ ∧
      (∀ ss, List.Sublist ss (add ss)) ∧ more.filterMap Note.error? = [] ∧
      e.position ∈ (us ++ [t]).map Token.position := by
  have hlength := length_past_lt rest t hbroken.nonempty
  obtain ⟨u, vs, rfl⟩ := exists_cons_of_ne_nil hbroken.nonempty
  have hvalid : ∀ v ∈ u :: vs, v.kind ≠ .invalid := by
    intro v hv hkind
    exact hbroken.plain v hv (by rw [hkind]; decide)
  have hplain := hbroken.plain u mem_cons_self
  simp only [landmarks, mem_cons, not_mem_nil, or_false, not_or] at hplain
  have hkind : (Session.mk ⟨u :: vs ++ t :: rest, last⟩ notes).input.kind ∉
      [Token.Kind.mark .semicolon, .keyword .endKw, .endOfText] := by
    change u.kind ∉ _
    simp [hplain]
  by_cases hname : u.kind = .identifier
  -- An assignment or a call ends too early, or fails within the segment or right behind it.
  · have hrun := statement_of_name ⟨⟨u :: vs ++ t :: rest, last⟩, notes⟩ hname
    rcases Parse.confined_assignmentOrCall (u :: vs) hvalid ht ht rest rest last last with
      ⟨a, ws, hws, hok, -⟩ | ⟨e, ws, hws, herror, hposition⟩
    · have hsuffix := suffix_of_eats rest last Parse.eats_assignmentOrCall hname hws (.inl ⟨a, hok⟩)
      cases ws with
      | nil => exact absurd (whole_of_name hname hvalid ht hok) hbroken.notWhole
      | cons w ws =>
        obtain ⟨more, hafter, herrors⟩ :=
          afterStatement_early ht rest last notes (hbroken.skippable hsuffix)
        refine ⟨(a :: ·), ⟨.expected "';' after statement" w, w.position⟩, more,
          nextStatement_of_ok hkind (hrun.trans (Parse.lift_of_ok hok notes)) hafter,
          sublist_cons_self a, herrors, ?_⟩
        exact mem_map_of_mem (mem_append_left _ (hws.subset mem_cons_self))
    · have hsuffix := suffix_of_eats rest last Parse.eats_assignmentOrCall hname hws
        (.inr ⟨_, herror⟩)
      obtain ⟨more, hafter, herrors⟩ :=
        afterFault_past ht rest last notes (hbroken.skippable hsuffix) e hlength
      exact ⟨id, e, more,
        nextStatement_of_error hkind (hrun.trans (Parse.lift_of_error herror notes)) hafter,
        List.Sublist.refl, herrors, hposition⟩
  · have hskippable : Skippable (u :: vs) := hbroken.skippable_of_ne (by simp [hname])
    by_cases helse : u.kind = .keyword .elseKw
    -- An `else` that belongs to nothing stands behind an empty statement.
    · obtain ⟨more, hafter, herrors⟩ := afterStatement_early ht rest last notes hskippable
      refine ⟨_, ⟨.expected "';' after statement" u, u.position⟩, more,
        nextStatement_of_ok hkind (statement_of_empty _ ?_) hafter, sublist_cons_self _,
        herrors, mem_cons_self⟩
      change u.kind ∈ _
      simp [helse]
    -- No statement begins with the first token.
    · obtain ⟨more, hafter, herrors⟩ := afterFault_past ht rest last notes hskippable
        ⟨.expected "statement" u, u.position⟩ hlength
      refine ⟨id, _, more, nextStatement_of_error hkind ?_ hafter, List.Sublist.refl, herrors,
        mem_cons_self⟩
      have hunexpected : (Input.mk (u :: vs ++ t :: rest) last).unexpected "statement" =
        .phrase ⟨.expected "statement" u, u.position⟩ := if_neg (hvalid u mem_cons_self)
      rw [statement_of_other, hunexpected]
      change u.kind ∉ _
      simp [hplain, hname, helse]

end Rounds

end Recover

/-! ## Sequences of segments -/

/-- Tokens up to what closes a statement or a declaration, and that. -/
structure Segment where
  text : List Token
  stop : Token
  deriving DecidableEq, Repr

def Segment.tokens (g : Segment) : List Token := g.text ++ [g.stop]

/-- What is read of segments before the given rest: for each broken one a fault in it or right
behind it, and for each whole one that is not empty the statement that it is read as. -/
inductive Isolated (rest : List Token) (last : Token) :
    List Segment → List SyntaxError → List Statement → Prop
  | nil : Isolated rest last [] [] []
  | empty {stop : Token} {gs : List Segment} {es : List SyntaxError} {ss : List Statement} :
      Isolated rest last gs es ss → Isolated rest last (⟨[], stop⟩ :: gs) es ss
  | whole {g : Segment} {gs : List Segment} {s : Statement} {read : List Note}
      {es : List SyntaxError} {ss : List Statement} :
      g.text ≠ [] → Whole g.text →
      Phrase.statement ⟨⟨g.text ++ g.stop :: (gs.flatMap Segment.tokens ++ rest), last⟩, []⟩ =
        .ok s ⟨⟨g.stop :: (gs.flatMap Segment.tokens ++ rest), last⟩, read⟩ →
      Isolated rest last gs es ss → Isolated rest last (g :: gs) es (s :: ss)
  | broken {g : Segment} {gs : List Segment} {e : SyntaxError} {es : List SyntaxError}
      {ss : List Statement} :
      Broken g.text → e.position ∈ g.tokens.map Token.position →
      Isolated rest last gs es ss → Isolated rest last (g :: gs) (e :: es) ss

theorem map_of_ok {ε σ α β : Type} {x : EStateM ε σ α} {s s' : σ} {a : α} (h : x s = .ok a s')
    (f : α → β) : (f <$> x) s = .ok (f a) s' := by
  change EStateM.map f x s = _
  unfold EStateM.map
  rw [h]

section Sequences

open Recover

variable {g : Segment} (hstop : g.stop.kind.Closes) (gs : List Segment) (rest : List Token)
  {last : Token} (hlast : last.kind.isLast = true) (notes : List Note)
include hstop hlast

theorem statements_of_empty : statements Phrase.statement ⟨⟨g.stop :: rest, last⟩, notes⟩ =
      (id <$> statements Phrase.statement) ⟨⟨past g.stop rest, last⟩, notes⟩ := by
  unfold past
  rcases hstop with hstop | hstop
  · have hnext : nextStatement Phrase.statement ⟨⟨g.stop :: rest, last⟩, notes⟩ =
        .ok (some id) ⟨⟨rest, last⟩, notes⟩ := by
      unfold nextStatement
      rw [kind_bind, Parse.kind_cons, hstop]
      rfl
    rw [if_pos hstop, loops_statements.unrolls _ hlast, bind_of_ok hnext]
    rfl
  · rw [if_neg (by rw [hstop]; nofun), id_map]

/-- What reading one segment comes to: the loop goes on behind it, and the fault or the statement of
the segment is added to those of the segments that follow. -/
theorem Segment.step (hg : g.text = [] ∨ Whole g.text ∨ Broken g.text) : ∃ add more ss,
      statements Phrase.statement
          ⟨⟨g.text ++ g.stop :: (gs.flatMap Segment.tokens ++ rest), last⟩, notes⟩ =
        (add <$> statements Phrase.statement)
          ⟨⟨past g.stop (gs.flatMap Segment.tokens ++ rest), last⟩, notes ++ more⟩ ∧
      (∀ ts us, List.Sublist ts us → List.Sublist (ss ++ ts) (add us)) ∧
      ∀ es' ss', Isolated rest last gs es' ss' →
        Isolated rest last (g :: gs) (more.filterMap Note.error? ++ es') (ss ++ ss') := by
  have hround : ∀ {add s'}, nextStatement Phrase.statement
      ⟨⟨g.text ++ g.stop :: (gs.flatMap Segment.tokens ++ rest), last⟩, notes⟩ = .ok (some add) s' →
      statements Phrase.statement
        ⟨⟨g.text ++ g.stop :: (gs.flatMap Segment.tokens ++ rest), last⟩, notes⟩ =
      (add <$> statements Phrase.statement) s' := by
    intro add s' h
    rw [loops_statements.unrolls _ hlast, bind_of_ok h]
    rfl
  by_cases hempty : g.text = []
  · refine ⟨id, [], [], ?_, fun ts us h => h, fun es' ss' h => ?_⟩
    · rw [hempty, append_nil]
      exact statements_of_empty hstop _ hlast notes
    · obtain ⟨text, stop⟩ := g
      cases hempty
      exact .empty h
  rcases hg.resolve_left hempty with hwhole | hbroken
  · obtain ⟨s, more, hread, hnext, herrors⟩ := nextStatement_of_whole hstop
      (gs.flatMap Segment.tokens ++ rest) last notes hwhole hempty
    refine ⟨(s :: ·), more, [s], hround hnext, fun ts us h => h.cons_cons s, fun es' ss' h => ?_⟩
    rw [herrors]
    exact .whole hempty hwhole hread h
  · obtain ⟨add, e, more, hnext, hadd, herrors, hposition⟩ := nextStatement_of_broken hstop
      (gs.flatMap Segment.tokens ++ rest) last notes hbroken
    refine ⟨add, .fault e :: more, [], hround hnext, fun ts us h => h.trans (hadd us),
      fun es' ss' h => ?_⟩
    have hfault : (Note.fault e :: more).filterMap Note.error? = [e] := by
      simp [Note.error?, herrors]
    rw [hfault]
    exact .broken hbroken hposition h

end Sequences

/-- Segments with semicolons between them, and an `end` behind the last one, are read up to that
`end`. Each broken segment gives one fault, in order, and no other fault is noted. The statements
that the whole segments are read as are kept in order. -/
theorem statements_isolated (init : List Segment) (final : Segment)
    (hinit : ∀ g ∈ init, g.stop.kind = .mark .semicolon)
    (hfinal : final.stop.kind = .keyword .endKw)
    (hsegments : ∀ g ∈ init ++ [final], g.text = [] ∨ Whole g.text ∨ Broken g.text)
    (rest : List Token) (last : Token) (hlast : last.kind.isLast = true) (notes : List Note) :
    ∃ result more kept,
      Recover.statements Phrase.statement
          ⟨⟨(init ++ [final]).flatMap Segment.tokens ++ rest, last⟩, notes⟩ =
        .ok result ⟨⟨final.stop :: rest, last⟩, notes ++ more⟩ ∧
      Isolated rest last (init ++ [final]) (more.filterMap Note.error?) kept ∧
      kept.Sublist result := by
  have htokens : ∀ (g : Segment) gs, (g :: gs).flatMap Segment.tokens ++ rest =
      g.text ++ g.stop :: (gs.flatMap Segment.tokens ++ rest) := by
    intro g gs
    simp [Segment.tokens]
  induction init generalizing notes with
  | nil =>
    have hstop : final.stop.kind.Closes := .inr hfinal
    obtain ⟨add, more, ss, hrun, hsublist, hisolated⟩ := Segment.step hstop [] rest hlast notes
      (hsegments final (by simp))
    have hpast : past final.stop ([].flatMap Segment.tokens ++ rest) = final.stop :: rest :=
      if_neg (by rw [hfinal]; nofun)
    refine ⟨add [], more, ss ++ [], ?_, ?_, hsublist [] [] List.Sublist.slnil⟩
    · rw [List.nil_append, htokens, hrun, hpast]
      have hend : Recover.statements Phrase.statement
          ⟨⟨final.stop :: rest, last⟩, notes ++ more⟩ = .ok [] _ :=
        Recover.statementsWithin_of_end _ (.inl hfinal)
      exact map_of_ok hend add
    · have h := hisolated [] [] .nil
      rwa [List.append_nil] at h
  | cons g init ih =>
    have hstop : g.stop.kind.Closes := .inl (hinit g List.mem_cons_self)
    obtain ⟨add, more, ss, hrun, hsublist, hisolated⟩ := Segment.step hstop (init ++ [final]) rest
      hlast notes (hsegments g (by simp))
    obtain ⟨result, more', kept, hrest, hkept, hsub⟩ :=
      ih (fun g hg => hinit g (List.mem_cons_of_mem _ hg))
        (fun g hg => hsegments g (List.mem_cons_of_mem _ hg)) (notes ++ more)
    have hpast : past g.stop ((init ++ [final]).flatMap Segment.tokens ++ rest) =
        (init ++ [final]).flatMap Segment.tokens ++ rest :=
      if_pos (hinit g List.mem_cons_self)
    refine ⟨add result, more ++ more', ss ++ kept, ?_, ?_, hsublist _ _ hsub⟩
    · rw [List.cons_append, htokens, hrun, hpast, ← List.append_assoc]
      exact map_of_ok hrest add
    · rw [List.filterMap_append]
      exact hisolated _ _ hkept

/-- The tokens of `x := 1; y 2 z; ; p end`, in segments. -/
def mixedSegments : List Segment × Segment :=
  let word (k : Token.Kind) (text : String) (column : Nat) (payload : Option Token.Payload) :
      Token := ⟨k, text, ⟨1, column⟩, payload⟩
  let name (text : String) (column : Nat) := word .identifier text column (some (.text text))
  let semicolon (column : Nat) := word (.mark .semicolon) ";" column none
  ([⟨[name "x" 1, word (.mark .assign) ":=" 3 none, word .integer "1" 6 (some (.integer 1))],
      semicolon 7⟩,
    ⟨[name "y" 9, word .integer "2" 11 (some (.integer 2)), name "z" 13], semicolon 14⟩,
    ⟨[], semicolon 16⟩],
   ⟨[name "p" 18], word (.keyword .endKw) "end" 20 none⟩)

theorem mixedSegments_known : ∀ g ∈ mixedSegments.1 ++ [mixedSegments.2],
    g.text = [] ∨ Whole g.text ∨ Broken g.text := by
  intro g hg
  simp only [mixedSegments, cons_append, nil_append, mem_cons, not_mem_nil,
    or_false] at hg
  have hwhole : ∀ {u : Token} {vs : List Token} {a : Statement}, u.kind = .identifier →
      (∀ v ∈ u :: vs, v.kind ≠ .invalid) →
      Parse.assignmentOrCall ⟨u :: vs ++ [mixedSegments.2.stop], mixedSegments.2.stop⟩ =
        .ok a ⟨[mixedSegments.2.stop], mixedSegments.2.stop⟩ → Whole (u :: vs) :=
    fun hu hvalid hok => Recover.whole_of_name hu hvalid (.inr rfl) hok
  rcases hg with rfl | rfl | rfl | rfl
  · exact .inr (.inl (hwhole rfl (by decide) rfl))
  · refine .inr (.inr ⟨by decide, fun h => ?_, by decide, by simp [NoOpening, openers]⟩)
    -- Only the name is read, as a call, so that three tokens are left and not one.
    obtain ⟨s, more, hread, -⟩ := h (t := mixedSegments.2.stop) (.inr rfl) [] mixedSegments.2.stop
    have hleft : 3 = 1 := congrArg (fun r => (Outcome.left r).length) hread
    exact absurd hleft (by decide)
  · exact .inl rfl
  · exact .inr (.inl (hwhole rfl (by decide) rfl))

theorem mixedSegments_isolated : ∃ result more kept,
    Recover.statements Phrase.statement ⟨⟨(mixedSegments.1 ++ [mixedSegments.2]).flatMap
        Segment.tokens ++ [], ⟨.endOfText, "", ⟨1, 23⟩, none⟩⟩, []⟩ =
      .ok result ⟨⟨[mixedSegments.2.stop], ⟨.endOfText, "", ⟨1, 23⟩, none⟩⟩, [] ++ more⟩ ∧
    Isolated [] ⟨.endOfText, "", ⟨1, 23⟩, none⟩ (mixedSegments.1 ++ [mixedSegments.2])
      (more.filterMap Note.error?) kept ∧
    kept.Sublist result :=
  statements_isolated mixedSegments.1 mixedSegments.2 (by decide) rfl mixedSegments_known []
    ⟨.endOfText, "", ⟨1, 23⟩, none⟩ rfl []

end MiniPascal
