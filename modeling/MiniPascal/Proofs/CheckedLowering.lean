import MiniPascal.Proofs.Blocks
import MiniPascal.Proofs.Places

/-!
# Lowering of checked sources

The statements of a source without faults and problems can all be lowered.
-/

namespace MiniPascal

open Analysis

/-- What is known of a program that was read and checked without faults. -/
structure Accepted (p : Program) : Prop where
  checked : ProgramChecked p
  places : p.places.Nodup
  ranged : p.Ranged

variable {source : String}

theorem accepted_of_source {p : Program} (hparse : parse (scan source) = .ok (p, []))
    (hclean : (analyze p).isClean = true) : Accepted p ∧ (analyze p).table = finished p := by
  obtain ⟨hplaces, hranged⟩ := parse_scan hparse
  obtain ⟨hchecked, htable⟩ := analyze_clean (List.isEmpty_iff.mp hclean)
  exact ⟨⟨hchecked, hplaces, hranged⟩, htable⟩

namespace Accepted

variable {p : Program} (accepted : Accepted p)
include accepted

theorem headings : (p.position :: p.subprograms.map fun s => s.heading.position).Nodup := by
  refine List.Sublist.nodup (.cons_cons _ ?_) accepted.places
  exact (heads_sublist p.subprograms).trans (List.sublist_append_right _ _)

theorem heads : (p.subprograms.map fun s => s.heading.position).Nodup :=
  (List.nodup_cons.mp accepted.headings).2

end Accepted

/-- Whether a source is accepted and its program passes a test. -/
def acceptedWith (source : String) (test : Program → Bool) : Bool :=
  (parse (scan source)).toOption.any fun r => r.2.isEmpty && (analyze r.1).isClean && test r.1

theorem of_acceptedWith (source : String) (test : Program → Bool)
    (h : acceptedWith source test = true) :
    ∃ p, parse (scan source) = .ok (p, []) ∧ (analyze p).isClean = true ∧ test p = true := by
  unfold acceptedWith at h
  cases hr : parse (scan source) with
  | error e =>
    rw [hr] at h
    cases h
  | ok r =>
    obtain ⟨p, errors⟩ := r
    rw [hr] at h
    simp only [Except.toOption, Option.any_some, Bool.and_eq_true, List.isEmpty_iff] at h
    obtain ⟨⟨rfl, hclean⟩, htest⟩ := h
    exact ⟨p, rfl, hclean, htest⟩

theorem acceptedWith_of_chars {cs : List Char} {test : Program → Bool}
    (hsource : source = String.ofList cs) (h : ((parse (scanFrom .start cs)).toOption.any fun r =>
      r.2.isEmpty && (analyze r.1).isClean && test r.1) = true) :
    acceptedWith source test = true := by
  rwa [acceptedWith, hsource, scan_ofList]

namespace C

/-- Lowering never fails on the statements of a source that was accepted. -/
theorem accepted_statements_lower {source : String} {p : MiniPascal.Program}
    (hparse : parse (scan source) = .ok (p, [])) (hclean : (analyze p).isClean = true)
    (level : Nat) :
    ∃ env, outermost p (analyze p).table (foldsAt level) = .ok env ∧
      (∃ body, lowerStatements env p.body.statements = .ok body) ∧
      ∀ s ∈ p.subprograms, ∃ block,
        blockFor env.table s.heading.name s.heading.position = .ok block ∧
          ∃ body, lowerStatements { env with block, subprogram := some s.heading }
            s.body.statements = .ok body := by
  obtain ⟨accepted, htable⟩ := accepted_of_source hparse hclean
  rw [htable]
  obtain ⟨henv, hroot, hsubs⟩ :=
    statements_succeed accepted.checked accepted.headings (foldsAt level)
  exact ⟨_, henv, hroot, hsubs⟩

/-- A function with an early exit, a hidden built-in, an array and a call in an index. -/
def hiddenWrite : String := "program p; var a: array[1..3] of integer;
  function f(x: integer): integer; begin f := x; exit end;
  procedure write(var c: integer); begin c := f(2) end;
  begin write(a[f(1)]); writeln(a[1] / 2, ' ') end."

set_option maxRecDepth 2000 in
theorem sample_statements_lower : ∃ p : MiniPascal.Program,
    parse (scan hiddenWrite) = .ok (p, []) ∧ (analyze p).isClean = true ∧
      p.subprograms.length = 2 ∧
      ∃ env, outermost p (analyze p).table (foldsAt 1) = .ok env ∧
        (∃ body, lowerStatements env p.body.statements = .ok body) ∧
        ∀ s ∈ p.subprograms, ∃ block,
          blockFor env.table s.heading.name s.heading.position = .ok block ∧
            ∃ body, lowerStatements { env with block, subprogram := some s.heading }
              s.body.statements = .ok body := by
  obtain ⟨p, hp, hclean, htest⟩ :=
    of_acceptedWith hiddenWrite (fun p => p.subprograms.length == 2)
      (acceptedWith_of_chars rfl (by decide +kernel))
  exact ⟨p, hp, hclean, beq_iff_eq.mp htest, accepted_statements_lower hp hclean 1⟩

end C

end MiniPascal
