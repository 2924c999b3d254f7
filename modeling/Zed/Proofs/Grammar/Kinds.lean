import Zed.Proofs.Grammar.Continuation
import Zed.Proofs.Grammar.Course

/-!
# Reading sees only kinds

The lexeme and the place of a token go into diagnostics and into the variables of a program, and
nowhere else. So two lists of tokens of the same kinds are read alike: both readings end in the same
way, and their programs are equal once places and diagnostics are erased (`Reading.ofTokens_alike`).

In the view `View.kinds` two tokens look alike if they are of the same kind, so this is a case of
what `Rule.Continues` says of blocks.
-/

set_option autoImplicit false

namespace Zed

/-- The kinds of diagnostics, in order. -/
def Diagnostic.kinds (ds : List Diagnostic) : List Diagnostic.Kind :=
  ds.map Diagnostic.kind

theorem Diagnostic.kinds_append (ds es : List Diagnostic) :
    Diagnostic.kinds (ds ++ es) = Diagnostic.kinds ds ++ Diagnostic.kinds es :=
  List.map_append

/-- Only kinds count. What a block inside a statement keeps is among the diagnostics of the block
around it, so nothing of it has to be seen. -/
def View.kinds : View Token.Kind Diagnostic.Kind where
  token := Token.kind
  rename := Variable.erase
  kept _ := []
  see := Diagnostic.kind
  kind_eq h := h
  rename_eq _ _ := rfl
  see_eq _ _ := rfl
  kept_eq _ := rfl

namespace Reading

/-- The readings are the same up to places and the wording of diagnostics. -/
structure Alike (r o : Reading) : Prop where
  program : r.program.map Program.bare = o.program.map Program.bare
  name : r.name = o.name
  diagnostics : Diagnostic.kinds r.diagnostics = Diagnostic.kinds o.diagnostics
  incomplete : r.incomplete = o.incomplete

/-- The fault behind the end depends on the kinds of the tokens there. -/
theorem trailing_alike {ts us : List Token} (h : View.kinds.Sees ts us) :
    Diagnostic.kinds (trailing ts) = Diagnostic.kinds (trailing us) := by
  cases ts with
  | nil => rw [View.sees_nil h]
  | cons t ts =>
    obtain ⟨u, us, rfl, -, -⟩ := View.Sees.cons h
    rfl

/-- The reading of a body depends on the kinds of its tokens, up to positions. -/
theorem ofBody_alike (name : String) {ts us : List Token} (h : View.kinds.Sees ts us) :
    (ofBody name ts).Alike (ofBody name us) := by
  have hlength : ts.length = us.length := by
    simpa only [List.length_map] using congrArg List.length h
  have hblock := (Rule.continues_recovering .kinds).block (Nat.le_refl (ts.length + 1)) .ENDPROG
    false ts [] us (by rwa [List.append_nil])
  have hspent := (Rule.block_reads (ts.length + 1) .ENDPROG).ne_exhausted (Nat.lt_succ_self _)
  rw [ofBody, ofBody, ← hlength]
  generalize Rule.block (ts.length + 1) .ENDPROG false ts = r,
    Rule.block (ts.length + 1) .ENDPROG false us = o at hblock hspent
  cases hblock with
  | done hab hrest _ =>
    rw [List.append_nil] at hrest
    obtain ⟨hbare, hfound⟩ := Prod.ext_iff.1 hab
    refine ⟨congrArg (fun b => some (Program.mk name b)) hbare, rfl, ?_, rfl⟩
    exact View.reports_append hfound (trailing_alike hrest)
  | rejected hreport _ _ => exact ⟨rfl, rfl, hreport, rfl⟩
  | ended _ hend =>
    obtain ⟨es, rfl, hreport⟩ := hend rfl
    exact ⟨rfl, rfl, hreport, rfl⟩
  | exhausted => exact absurd rfl hspent

/-- Tokens of the same kinds are read alike. -/
theorem ofTokens_alike {ts us : List Token} (h : ts.map Token.kind = us.map Token.kind) :
    (ofTokens ts).Alike (ofTokens us) := by
  have hheader := (Rule.continues_recovering .kinds).header ts [] us
    (by rwa [List.append_nil])
  have hspent := Rule.header_reads.ne_exhausted (Nat.lt_succ_self ts.length)
  rw [ofTokens, ofTokens]
  generalize Rule.header ts = r, Rule.header us = o at hheader hspent
  cases hheader with
  | @done name other _ _ _ _ hname hrest _ =>
    obtain rfl : name = other := hname
    rw [List.append_nil] at hrest
    exact ofBody_alike name hrest
  | rejected hreport _ _ => exact ⟨rfl, rfl, hreport, rfl⟩
  | ended _ hend =>
    obtain ⟨es, rfl, hreport⟩ := hend rfl
    exact ⟨rfl, rfl, hreport, rfl⟩
  | exhausted => exact absurd rfl hspent

end Reading

end Zed
