import MiniPascal.Proofs.ReadDeclarations

/-!
# Reading without faults

Every way to go on after a fault notes it first. So if no fault is noted in the end, all that was
taken is a text of the reader's rule.
-/

namespace MiniPascal

open List

def Session.Clean (s : Session) : Prop := ∀ e, Note.fault e ∉ s.notes

theorem Session.Clean.of_le {s u : Session} (h : s.Clean) (hle : s ≤ u) : u.Clean :=
  fun e he => h e (hle.2.subset he)

/-- A reader that notes a fault whenever it succeeds. -/
def Notes {ε α : Type} (x : EStateM ε Session α) : Prop := ∀ ⦃s a s'⦄, x s = .ok a s' → ¬ s'.Clean

/-- Before the given token, and unless it notes a fault, the reader takes only texts of the rule,
which may mention the token after the text. -/
def CleanAt {ε α : Type} (t : Token) (x : EStateM ε Session α)
    (rule : List Token → Token → α → Prop) : Prop :=
  ∀ ⦃ts last notes a s⦄, Ended ts last → (Input.mk ts last).current = t →
    x ⟨⟨ts, last⟩, notes⟩ = .ok a s → s.Clean →
    ∃ us rest, ts = us ++ rest ∧ s.input = ⟨rest, last⟩ ∧ rule us s.input.current a

section Steps

variable {ε α β : Type} {t : Token} {x : EStateM ε Session α} {f : α → EStateM ε Session β}
  {first : List Token → Token → α → Prop} {rule : List Token → Token → β → Prop}

theorem Notes.bind (hx : Notes x) (hf : ∀ a, Advances (f a)) : Notes (x >>= f) := by
  intro s b s'' h hclean
  obtain ⟨a, s', ha, hb⟩ := bind_eq_ok h
  exact hx ha (hclean.of_le ((hf a).of_ok hb))

theorem Notes.cleanAt {x : EStateM ε Session β} (hx : Notes x) : CleanAt t x rule :=
  fun _ _ _ _ _ _ _ h hclean => absurd hclean (hx h)

theorem CleanAt.mono {x : EStateM ε Session β} {other : List Token → Token → β → Prop}
    (hx : CleanAt t x other) (h : ∀ us u a, other us u a → rule us u a) : CleanAt t x rule := by
  intro ts last notes a s hts ht hok hclean
  obtain ⟨us, rest, hsplit, hs, ha⟩ := hx hts ht hok hclean
  exact ⟨us, rest, hsplit, hs, h us _ a ha⟩

/-- Of two steps, the second starts before the token that the first stopped at. If the first took
nothing, that is still the same token. -/
theorem CleanAt.bind (hx : CleanAt t x first) (hadvances : ∀ a, Advances (f a))
    (hf : ∀ us u a, first us u a → (us = [] → u = t) →
      CleanAt u (f a) fun vs v b => rule (us ++ vs) v b) : CleanAt t (x >>= f) rule := by
  intro ts last notes b s hts ht h hclean
  obtain ⟨a, ⟨i, notes'⟩, ha, hb⟩ := bind_eq_ok h
  have hclean' := hclean.of_le ((hadvances a).of_ok hb)
  obtain ⟨us, rest, rfl, rfl, hfirst⟩ := hx hts ht ha hclean'
  have hsame : us = [] → (Input.mk rest last).current = t := by
    rintro rfl
    exact ht
  obtain ⟨vs, rest, rfl, hs, hrule⟩ := hf us _ a hfirst hsame hts.rest rfl hb hclean
  exact ⟨us ++ vs, rest, (append_assoc us vs rest).symm, hs, hrule⟩

theorem CleanAt.pure {b : β} (h : rule [] t b) : CleanAt t (pure b : EStateM ε Session β) rule := by
  intro ts last notes a s hts ht hok hclean
  cases hok
  cases ht
  exact ⟨[], ts, rfl, rfl, h⟩

theorem CleanAt.map {g : α → β} (hx : CleanAt t x first)
    (h : ∀ us u a, first us u a → rule us u (g a)) : CleanAt t (do return g (← x)) rule := by
  refine hx.bind (fun _ => .pure _) fun us u a ha _ => .pure ?_
  rw [append_nil]
  exact h us u a ha

theorem CleanAt.get {f : Session → EStateM ε Session β}
    (h : ∀ s, Ended s.input.tokens s.input.last → s.input.current = t → CleanAt t (f s) rule) :
    CleanAt t (MonadState.get >>= f) rule :=
  fun _ _ _ _ _ hts ht hok => h _ hts ht hts ht hok

end Steps

section Lifted

variable {α β : Type} {t : Token} {x : Parse α} {f : α → Phrase β}
  {first : List Token → α → Prop} {rule : List Token → Token → β → Prop}

theorem Parse.lift_of_ok {i i' : Input} {a : α} (h : x i = .ok a i') (notes : List Note) :
    (liftM x : Phrase α) ⟨i, notes⟩ = .ok a ⟨i', notes⟩ := by
  change (monadLift x : Phrase α) ⟨i, notes⟩ = _
  rw [Parse.lift_apply, h]

theorem ReadsAt.lift (hx : ReadsAt t x first) :
    CleanAt t (liftM x : Phrase α) fun us _ a => first us a := by
  intro ts last notes a s hts ht h _
  change (monadLift x : Phrase α) _ = _ at h
  rw [Parse.lift_apply] at h
  split at h
  · next hok =>
    cases h
    obtain ⟨us, rest, hsplit, rfl, ha⟩ := hx hts ht hok
    exact ⟨us, rest, hsplit, rfl, ha⟩
  · cases h

theorem ReadsAt.lift_bind (hx : ReadsAt t x first) (hf : ∀ us u a, first us a → (us = [] → u = t) →
      CleanAt u (f a) fun vs v b => rule (us ++ vs) v b) : CleanAt t (liftM x >>= f) rule := by
  intro ts last notes b s hts ht h hclean
  obtain ⟨a, s', ha, hb⟩ := bind_eq_ok h
  change (monadLift x : Phrase α) _ = _ at ha
  rw [Parse.lift_apply] at ha
  split at ha
  · next hok =>
    cases ha
    obtain ⟨us, rest, rfl, rfl, hfirst⟩ := hx hts ht hok
    have hsame : us = [] → (Input.mk rest last).current = t := by
      rintro rfl
      exact ht
    obtain ⟨vs, rest, rfl, hs, hrule⟩ := hf us _ a hfirst hsame hts.rest rfl hb hclean
    exact ⟨us ++ vs, rest, (append_assoc us vs rest).symm, hs, hrule⟩
  · cases ha

theorem Recover.lift_of_ok {x : Recover α} {s s' : Session} {a : α} (h : x s = .ok a s') :
    (liftM x : Phrase α) s = .ok a s' := by
  change (monadLift x : Phrase α) s = _
  rw [Recover.lift_apply, h]

theorem Recover.cleanAt_lift {x : Recover α} {rule : List Token → Token → α → Prop}
    (hx : CleanAt t x rule) : CleanAt t (liftM x : Phrase α) rule := by
  intro ts last notes a s hts ht h hclean
  change (monadLift x : Phrase α) _ = _ at h
  rw [Recover.lift_apply] at h
  split at h
  · next hok =>
    cases h
    exact hx hts ht hok hclean
  · cases h

end Lifted

namespace Phrase

variable {β : Type} {t : Token} {k : Token.Kind} {rule : List Token → Token → β → Prop}
  {ts : List Token} {last : Token} {notes : List Note}

theorem position_kind_bind {s : Session} (f : Position → Token.Kind → Phrase β) :
    (do f (← position) (← kind)) s = f s.input.position s.input.kind s := rfl

theorem advance_cons (f : Token → Phrase β) :
    (liftM Parse.advance >>= f) ⟨⟨t :: ts, last⟩, notes⟩ = f t ⟨⟨ts, last⟩, notes⟩ := rfl

theorem expect_cons (h : t.kind = k) (what : String) :
    (liftM (Parse.expect k what) : Phrase Token) ⟨⟨t :: ts, last⟩, notes⟩ =
      .ok t ⟨⟨ts, last⟩, notes⟩ :=
  Parse.lift_of_ok (Parse.expect_cons h what) notes

theorem cleanAt_kind {f : Token.Kind → Phrase β} (h : CleanAt t (f t.kind) rule) :
    CleanAt t (kind >>= f) rule := by
  intro ts last notes a s hts ht hok hclean
  cases ht
  exact h hts rfl hok hclean

theorem cleanAt_position {f : Position → Phrase β} (h : CleanAt t (f t.position) rule) :
    CleanAt t (position >>= f) rule := by
  intro ts last notes a s hts ht hok hclean
  cases ht
  exact h hts rfl hok hclean

variable {f : Token → Phrase β} {what : String}

theorem cleanAt_advance (ht : t.kind = k) (hk : k ≠ .endOfText)
    (h : ∀ u, CleanAt u (f t) fun us v b => rule (t :: us) v b) :
    CleanAt t (liftM Parse.advance >>= f) rule := by
  have hx : ReadsAt t (Parse.advance >>= pure) fun us a => us = [t] ∧ a = t :=
    Parse.readsAt_advance ht hk fun _ => .pure ⟨rfl, rfl⟩
  refine hx.lift_bind ?_
  rintro _ u _ ⟨rfl, rfl⟩ -
  exact h u

theorem cleanAt_expect (hk : k ≠ .endOfText)
    (h : t.kind = k → ∀ u, CleanAt u (f t) fun us v b => rule (t :: us) v b) :
    CleanAt t (liftM (Parse.expect k what) >>= f) rule := by
  have hx : ReadsAt t (Parse.expect k what >>= pure) fun us a => us = [t] ∧ a = t ∧ t.kind = k :=
    Parse.readsAt_expect hk fun ht _ => .pure ⟨rfl, rfl, ht⟩
  rw [bind_pure] at hx
  refine hx.lift_bind ?_
  rintro _ u _ ⟨rfl, rfl, ht⟩ -
  exact h ht u

theorem cleanAt_identifier {f : String × Position → Phrase β}
    (h : ∀ n, t.Names n → ∀ u, CleanAt u (f (n, t.position)) fun us v b => rule (t :: us) v b) :
    CleanAt t (liftM (Parse.identifier what) >>= f) rule := by
  have hx : ReadsAt t (Parse.identifier what >>= pure) fun us a =>
      us = [t] ∧ t.Names a.1 ∧ a.2 = t.position :=
    Parse.readsAt_identifier fun n hn => .pure ⟨rfl, hn, rfl⟩
  rw [bind_pure] at hx
  refine hx.lift_bind ?_
  rintro _ u ⟨n, p⟩ ⟨rfl, hn, rfl⟩ -
  exact h n hn u

theorem cleanAt_accept {f : Bool → Phrase β} (hk : k ≠ .endOfText)
    (htrue : t.kind = k → ∀ u, CleanAt u (f true) fun us v b => rule (t :: us) v b)
    (hfalse : t.kind ≠ k → CleanAt t (f false) rule) :
    CleanAt t (liftM (Parse.accept k) >>= f) rule := by
  have hx : ReadsAt t (Parse.accept k >>= pure) fun us b =>
      b = true ∧ us = [t] ∧ t.kind = k ∨ b = false ∧ us = [] ∧ t.kind ≠ k :=
    Parse.readsAt_accept hk (fun ht => .pure (.inl ⟨rfl, rfl, ht⟩))
      fun ht => Reads.pure (.inr ⟨rfl, rfl, ht⟩) t
  rw [bind_pure] at hx
  refine hx.lift_bind ?_
  rintro _ u _ (⟨rfl, rfl, ht⟩ | ⟨rfl, rfl, ht⟩) hsame
  · exact htrue ht u
  · cases hsame rfl
    exact hfalse ht

end Phrase

namespace Recover

variable {β : Type} {t : Token} {k : Token.Kind} {rule : List Token → Token → β → Prop}

theorem cleanAt_kind {f : Token.Kind → Recover β} (h : CleanAt t (f t.kind) rule) :
    CleanAt t (kind >>= f) rule := by
  intro ts last notes a s hts ht hok hclean
  cases ht
  exact h hts rfl hok hclean

theorem cleanAt_position {f : Position → Recover β} (h : CleanAt t (f t.position) rule) :
    CleanAt t (position >>= f) rule := by
  intro ts last notes a s hts ht hok hclean
  cases ht
  exact h hts rfl hok hclean

theorem cleanAt_advance {f : Unit → Recover β} (ht : t.kind = k) (hk : k ≠ .endOfText)
    (h : ∀ u, CleanAt u (f ()) fun us v b => rule (t :: us) v b) :
    CleanAt t (advance >>= f) rule := by
  intro ts last notes a s hts hcurrent hok hclean
  cases hcurrent
  obtain ⟨t, rest, rfl, -, hrest⟩ := hts.exists_cons fun hlast => hk (ht.symm.trans hlast)
  obtain ⟨us, rest, rfl, hs, hrule⟩ := h _ hrest rfl hok hclean
  exact ⟨t :: us, rest, rfl, hs, hrule⟩

variable {f : Bool → Recover β}

theorem cleanAt_accept (hk : k ≠ .endOfText)
    (htrue : t.kind = k → ∀ u, CleanAt u (f true) fun us v b => rule (t :: us) v b)
    (hfalse : t.kind ≠ k → CleanAt t (f false) rule) : CleanAt t (accept k >>= f) rule := by
  unfold accept
  rw [bind_assoc]
  refine cleanAt_kind ?_
  split
  · next ht =>
    rw [bind_assoc]
    refine cleanAt_advance ht hk fun u => ?_
    exact htrue ht u
  · next ht =>
    exact hfalse ht

theorem notes_record (e : Fault) : Notes (record e) := by
  intro s a s' h hclean
  cases e with
  | lexical => cases h
  | phrase e =>
    cases h
    exact hclean e (mem_append_right _ mem_cons_self)

theorem notes_recordExpected (what : String) : Notes (recordExpected what) :=
  fun _ _ _ h => notes_record _ h

theorem cleanAt_demand {what : String} (hk : k ≠ .endOfText) (hadvances : Advances (f false))
    (h : t.kind = k → ∀ u, CleanAt u (f true) fun us v b => rule (t :: us) v b) :
    CleanAt t (demand k what >>= f) rule := by
  unfold demand
  rw [bind_assoc]
  refine cleanAt_accept hk (fun ht u => ?_) fun _ => ?_
  · rw [if_pos rfl, pure_bind]
    exact h ht u
  · rw [if_neg Bool.false_ne_true, bind_assoc]
    refine Notes.cleanAt ((notes_recordExpected what).bind fun _ => ?_)
    exact hadvances

theorem cleanAt_attempt {α : Type} {p : Phrase α} {first : List Token → Token → α → Prop}
    (hp : CleanAt t p first) (hadvances : Advances p) :
    CleanAt t (attempt p) fun us u r => ∀ a, r = .ok a → first us u a := by
  intro ts last notes r s hts ht h hclean
  unfold attempt at h
  split at h
  · next a s' hok =>
    cases h
    obtain ⟨us, rest, hsplit, hs, ha⟩ := hp hts ht hok hclean
    refine ⟨us, rest, hsplit, hs, ?_⟩
    rintro _ ⟨⟩
    exact ha
  · next e s' herror =>
    cases h
    have hle := hadvances ⟨⟨ts, last⟩, notes⟩
    rw [herror] at hle
    obtain ⟨⟨⟨us, hsplit⟩, hlast⟩, -⟩ := hle
    have hlast : s.input.last = last := hlast
    exact ⟨us, s.input.tokens, hsplit.symm, by rw [← hlast], nofun⟩

theorem cleanAt_orSkip {α : Type} {p : Phrase α} {first : List Token → Token → α → Prop}
    (hp : CleanAt t p first) (hadvances : Advances p) (stops : List Token.Kind) :
    CleanAt t (orSkip p stops) fun us u r => ∃ a, r = some a ∧ first us u a := by
  have hskip : ∀ e, Notes (do
      record e
      skipTo stops
      let _ ← accept (.mark .semicolon)
      return (none : Option α)) := fun e =>
    (notes_record e).bind fun _ => .bind (advances_skipTo stops) fun _ =>
      .bind (advances_accept _) fun _ => .pure _
  refine (cleanAt_attempt hp hadvances).bind (fun r => ?_) fun us u r hr _ => ?_
  · cases r with
    | ok a => exact .pure _
    | error e =>
      exact .bind (advances_record _) fun _ => .bind (advances_skipTo stops) fun _ =>
        .bind (advances_accept _) fun _ => .pure _
  · cases r with
    | ok a =>
      refine .pure ⟨a, rfl, ?_⟩
      rw [append_nil]
      exact hr a rfl
    | error e => exact (hskip e).cleanAt

section Declarations

variable {α : Type} {decl : Parse α} {declText : List Token → α → Prop}
  (hdecl : Reads decl declText) (htidy : Tidy decl)
include hdecl htidy

theorem cleanAt_declarations (stops : List Token.Kind) (n : Nat) (t : Token) :
    CleanAt t (declarations decl stops n) fun us _ ds =>
      Repeated declText us ds ∧ (t.kind = .identifier → n ≠ 0 → ds ≠ []) := by
  induction n generalizing t with
  | zero => exact .pure ⟨.nil, fun _ h => absurd rfl h⟩
  | succ n ih =>
    refine cleanAt_kind ?_
    split
    · refine (cleanAt_orSkip (hdecl t).lift (Phrase.advances htidy) stops).bind
        (fun r => ?_) ?_
      · cases r with
        | some d => exact .bind (advances (tidy_declarations htidy stops n)) fun _ => .pure _
        | none => exact advances (tidy_declarations htidy stops n)
      · rintro us u _ ⟨d, rfl, hd⟩ -
        refine (ih u).map fun vs v ds hds => ⟨.cons hd hds.1, fun _ _ => cons_ne_nil _ _⟩
    · next ht => exact .pure ⟨.nil, fun h => absurd h ht⟩

theorem cleanAt_declarationsAfter (keyword : Keyword) (stops : List Token.Kind) (t : Token) :
    CleanAt t (declarationsAfter keyword decl stops) fun us _ ds =>
      SectionText keyword declText us ds := by
  have hrest : Advances (do declarations decl stops (← get).input.tokens.length : Recover _) :=
    .bind .get fun _ => advances (tidy_declarations htidy stops _)
  refine cleanAt_accept nofun (fun ht u => ?_) fun _ => .pure .none
  rw [if_pos rfl]
  refine cleanAt_kind ?_
  split
  · exact ((notes_recordExpected _).bind fun _ => hrest).cleanAt
  · next hu =>
    rw [ne_eq, Decidable.not_not] at hu
    refine .get fun s hs hcurrent => ?_
    refine (cleanAt_declarations hdecl htidy stops _ u).mono ?_
    rintro us v ds ⟨hds, hne⟩
    have hkind : s.input.kind ≠ .endOfText := by
      rw [Input.kind, hcurrent, hu]
      decide
    obtain ⟨_, _, htokens, -⟩ := hs.exists_cons hkind
    have hds_ne : ds ≠ [] := hne hu (by rw [htokens]; exact Nat.succ_ne_zero _)
    cases ds with
    | nil => exact absurd rfl hds_ne
    | cons d ds => exact .some ht hds

end Declarations

section Runs

variable {α β : Type} {t : Token} {ts : List Token} {last : Token} {notes : List Note}
  {k : Token.Kind} {s : Session}

theorem kind_bind (f : Token.Kind → Recover β) : (kind >>= f) s = f s.input.kind s := rfl

theorem position_bind (f : Position → Recover β) : (position >>= f) s = f s.input.position s := rfl

theorem get_bind (f : Session → Recover β) : (get >>= f : Recover β) s = f s s := rfl

theorem advance_cons (f : Unit → Recover β) :
    (advance >>= f) ⟨⟨t :: ts, last⟩, notes⟩ = f () ⟨⟨ts, last⟩, notes⟩ := rfl

theorem accept_cons (h : t.kind = k) :
    accept k ⟨⟨t :: ts, last⟩, notes⟩ = .ok true ⟨⟨ts, last⟩, notes⟩ := by
  unfold accept
  rw [kind_bind, Parse.kind_cons, if_pos h, advance_cons]
  rfl

theorem accept_of_ne (h : s.input.kind ≠ k) : accept k s = .ok false s := by
  unfold accept
  rw [kind_bind, if_neg h]
  rfl

theorem demand_cons (h : t.kind = k) (what : String) :
    demand k what ⟨⟨t :: ts, last⟩, notes⟩ = .ok true ⟨⟨ts, last⟩, notes⟩ := by
  unfold demand
  rw [bind_of_ok (accept_cons h)]
  rfl

variable {p : Phrase α} {s' : Session} {ds : List α}

theorem attempt_of_ok {a : α} (h : p s = .ok a s') : attempt p s = .ok (.ok a) s' := by
  unfold attempt
  rw [h]

theorem orSkip_of_ok {a : α} (h : p s = .ok a s') (stops : List Token.Kind) :
    orSkip p stops s = .ok (some a) s' := by
  unfold orSkip
  rw [bind_of_ok (attempt_of_ok h)]
  rfl

theorem declarations_of_ne (decl : Parse α) (stops : List Token.Kind)
    (hend : s.input.kind ≠ .identifier) (n : Nat) : declarations decl stops n s = .ok [] s := by
  cases n with
  | zero => rfl
  | succ n =>
    unfold declarations
    rw [kind_bind, if_neg hend]
    rfl

variable {decl : Parse α} {declText : List Token → α → Prop}
  (hdecl : ∀ n, Takes n decl declText fun _ _ => True)
  (hstart : ∀ ts d, declText ts d → Starts ts (· = .identifier))
include hdecl hstart

variable {rest : List Token}

theorem declarations_of_text (stops : List Token.Kind) (h : Repeated declText ts ds)
    (hend : (Input.mk rest last).kind ≠ .identifier) {n : Nat} (hn : ts.length ≤ n) :
    declarations decl stops n ⟨⟨ts ++ rest, last⟩, notes⟩ = .ok ds ⟨⟨rest, last⟩, notes⟩ := by
  induction h generalizing n with
  | nil => exact declarations_of_ne decl stops hend n
  | @cons us vs d ds hd _ ih =>
    have hname : (Input.mk (us ++ (vs ++ rest)) last).kind = .identifier :=
      (hstart us d hd).kind (vs ++ rest) last
    have hlength : us.length ≠ 0 := by
      obtain ⟨t, us, rfl, -⟩ := hstart us d hd
      nofun
    rw [length_append] at hn
    obtain ⟨n, rfl⟩ : ∃ m, n = m + 1 := ⟨n - 1, by omega⟩
    have hread := hdecl _ (vs ++ rest) last (Nat.le_refl _) hd trivial
    unfold declarations
    rw [kind_bind, append_assoc, if_pos hname,
      bind_of_ok (orSkip_of_ok (Parse.lift_of_ok hread notes) stops)]
    dsimp only
    rw [bind_of_ok (ih (by omega))]
    rfl

/-- Without its keyword a section is empty; with it, no name may follow the last declaration. -/
theorem declarationsAfter_of_text {keyword : Keyword} (stops : List Token.Kind)
    (h : SectionText keyword declText ts ds) (hend : (Input.mk rest last).kind ≠ .identifier)
    (hkeyword : (Input.mk rest last).kind ≠ .keyword keyword) :
    declarationsAfter keyword decl stops ⟨⟨ts ++ rest, last⟩, notes⟩ =
      .ok ds ⟨⟨rest, last⟩, notes⟩ := by
  unfold declarationsAfter
  cases h with
  | none =>
    rw [nil_append, bind_of_ok (accept_of_ne hkeyword)]
    rfl
  | @some t ts d ds ht hds =>
    have hname : (Input.mk (ts ++ rest) last).kind = .identifier := by
      cases hds with
      | cons hd _ => exact ((hstart _ d hd).append _).kind rest last
    have hlength : ts.length ≤ (ts ++ rest).length := by
      rw [length_append]
      omega
    rw [cons_append, bind_of_ok (accept_cons ht), if_pos rfl, kind_bind,
      if_neg (not_not_intro hname)]
    exact declarations_of_text hdecl hstart stops hds hend hlength

end Runs

end Recover

end MiniPascal
