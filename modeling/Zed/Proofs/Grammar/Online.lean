import Zed.Proofs.Grammar.Accounting
import Zed.Proofs.Grammar.Continuation

/-!
# Reading is online

What has been read and reported does not depend on the tokens that are still to come: if tokens
are added at the end, a block that was read to its end is read as before, and leaves the
additional tokens behind. If the tokens ran out, what was reported up to there is still reported
first. This is what `Rule.Continues` says of blocks when everything counts. The fuel of a program
may grow with the tokens.
-/

set_option autoImplicit false

namespace Zed

namespace Rule

/-- A block with more fuel and more tokens goes on where the first one stopped. -/
theorem block_continues {fuel more : Nat} (hle : fuel ≤ more) (close : Keyword) (skipping : Bool)
    (ts us : List Token) :
    (block fuel close skipping ts).Continues .exact View.exact.block us
      ((block fuel close skipping).made ts) (block more close skipping (ts ++ us))
      ((block more close skipping).made (ts ++ us)) :=
  (continues_recovering .exact).block hle close skipping ts us (ts ++ us) (View.exact_sees.2 rfl)

/-- A block that was read to its end is read alike before further tokens. -/
theorem block_stable {fuel more : Nat} (hle : fuel ≤ more) (close : Keyword) (skipping : Bool)
    (ts us : List Token) :
    (block fuel close skipping ts).Stable us (block more close skipping (ts ++ us)) :=
  (block_continues hle close skipping ts us).stable View.exact_block_injective

/-- What was reported stays reported when further tokens follow. -/
theorem prefix_block_reported (close : Keyword) (skipping : Bool) (ts us : List Token) :
    (block (ts.length + 1) close skipping ts).reported
      <+: (block ((ts ++ us).length + 1) close skipping (ts ++ us)).reported := by
  have hle : ts.length + 1 ≤ (ts ++ us).length + 1 := by
    rw [List.length_append]
    exact Nat.succ_le_succ (Nat.le_add_right _ _)
  rw [block_reported (Nat.lt_succ_self _), block_reported (Nat.lt_succ_self _)]
  exact (block_continues hle close skipping ts us).prefix_made

/-- The header does not depend on the tokens that follow it. -/
theorem header_stable (ts us : List Token) : (header ts).Stable us (header (ts ++ us)) :=
  ((continues_recovering .exact).header ts us (ts ++ us) (View.exact_sees.2 rfl)).stable
    Function.injective_id

end Rule

/-! ## Programs -/

namespace Reading

/-- The tokens behind the end of the program, if it is reached. -/
def rest? (ts : List Token) : Option (List Token) :=
  match Rule.header ts with
  | .done _ us =>
    match Rule.block (us.length + 1) .ENDPROG false us with
    | .done _ rest => some rest
    | _ => none
  | _ => none

/-- The tokens behind a program can be told exactly if there is a program. -/
theorem isSome_rest? (ts : List Token) : (rest? ts).isSome = (ofTokens ts).program.isSome := by
  generalize hr : ofTokens ts = r
  cases hr ▸ ofTokens_course ts with
  | refused hheader => simp only [rest?, hheader, Option.isSome_none]
  | unnamed hheader => simp only [rest?, hheader, Option.isSome_none]
  | unfinished hheader hbody => simp only [rest?, hheader, hbody, Option.isSome_none]
  | finished hheader hbody => simp only [rest?, hheader, hbody, Option.isSome_some]

/-- Only the first token behind a program is reported. -/
theorem trailing_append (rest us : List Token) :
    trailing (rest ++ us) = trailing rest ++ if rest = [] then trailing us else [] := by
  cases rest <;> simp [trailing]

/-- A reading that came to an end stays as it is when tokens are added, except that the first one of
them is reported if there was none behind the program before. -/
theorem ofTokens_append_of_incomplete_eq_false {ts : List Token} (us : List Token)
    (h : (ofTokens ts).incomplete = false) :
    ofTokens (ts ++ us) = { ofTokens ts with
      diagnostics := (ofTokens ts).diagnostics
        ++ if rest? ts = some [] then trailing us else [] } := by
  have hheader := Rule.header_stable ts us
  generalize hr : ofTokens ts = r at h
  cases hr ▸ ofTokens_course ts with
  | @refused d rest hrefused =>
    rw [hrefused] at hheader
    have hnone : rest? ts = none := by simp only [rest?, hrefused]
    simp [(Course.refused hheader).eq, hnone]
  | unnamed => cases h
  | unfinished => cases h
  | @finished name vs rest body hname hbody =>
    rw [hname] at hheader
    have hbody' :=
      Rule.block_stable (by simp : vs.length + 1 ≤ (vs ++ us).length + 1) .ENDPROG false vs us
    rw [hbody] at hbody'
    have hrest : rest? ts = some rest := by simp only [rest?, hname, hbody]
    simp [(Course.finished hheader hbody').eq, hrest, trailing_append]

/-- What a body reports comes first. The fault behind the end comes last. -/
theorem reported_prefix_ofBody (name : String) (us : List Token) :
    (Rule.block (us.length + 1) .ENDPROG false us).reported <+: (ofBody name us).diagnostics := by
  simp only [ofBody]
  cases Rule.block (us.length + 1) .ENDPROG false us with
  | done body rest => exact List.prefix_append _ _
  | rejected report rest => exact List.prefix_refl report
  | ended report => exact List.prefix_refl report
  | exhausted => exact List.nil_prefix

/-- More tokens never take back a diagnostic, and never put one in front of it. -/
theorem prefix_ofTokens_diagnostics (ts us : List Token) :
    (ofTokens ts).diagnostics <+: (ofTokens (ts ++ us)).diagnostics := by
  have hheader := Rule.header_stable ts us
  cases hc : (ofTokens ts).incomplete with
  | false =>
    rw [ofTokens_append_of_incomplete_eq_false us hc]
    exact List.prefix_append _ _
  | true =>
    generalize hr : ofTokens ts = r at hc
    cases hr ▸ ofTokens_course ts with
    | refused => cases hc
    | unnamed => exact List.nil_prefix
    | @unfinished name vs report hname hbody =>
      rw [hname] at hheader
      have hname' : Rule.header (ts ++ us) = .done name (vs ++ us) := hheader
      have hpre := Rule.prefix_block_reported .ENDPROG false vs us
      rw [hbody] at hpre
      simp only [ofTokens, hname']
      exact hpre.trans (reported_prefix_ofBody name (vs ++ us))
    | finished => cases hc

/-- A reading without diagnostics that came to an end has left no token behind the program. -/
theorem rest?_of_diagnostics_eq_nil {ts : List Token} (hc : (ofTokens ts).incomplete = false)
    (hd : (ofTokens ts).diagnostics = []) : rest? ts = some [] := by
  generalize hr : ofTokens ts = r at hc hd
  cases hr ▸ ofTokens_course ts with
  | refused => cases hd
  | unnamed => cases hc
  | unfinished => cases hc
  | @finished name us rest body hname hbody =>
    obtain ⟨-, hrest⟩ := List.append_eq_nil_iff.1 hd
    rw [trailing_eq_nil.1 hrest] at hbody
    simp only [rest?, hname, hbody]

/-- Reading is online: tokens `us` at the end do not change what is reported about the tokens `ts`.
If these make up a whole program, or cannot begin one, the outcome is settled, up to one diagnostic
for a token behind the program. So a list of tokens without faults has no part at its beginning that
is a program. -/
theorem ofTokens_online (ts us : List Token) :
    (ofTokens ts).diagnostics <+: (ofTokens (ts ++ us)).diagnostics ∧
    ((ofTokens ts).incomplete = false →
      (ofTokens (ts ++ us)).program = (ofTokens ts).program ∧
      (ofTokens (ts ++ us)).name = (ofTokens ts).name ∧
      (ofTokens (ts ++ us)).incomplete = false ∧
      (ofTokens (ts ++ us)).diagnostics = (ofTokens ts).diagnostics ++
        if (ofTokens ts).program.isSome ∧ rest? ts = some [] then trailing us else []) ∧
    (us ≠ [] → (ofTokens (ts ++ us)).diagnostics = [] →
      (ofTokens ts).incomplete = true ∧ (ofTokens ts).program = none ∧
        (ofTokens ts).diagnostics = []) := by
  have hpre := prefix_ofTokens_diagnostics ts us
  refine ⟨hpre, fun hc => ?_, fun hus hnil => ?_⟩
  · have hprogram : rest? ts = some [] → (ofTokens ts).program.isSome := by
      intro hrest
      rw [← isSome_rest?, hrest, Option.isSome_some]
    rw [ofTokens_append_of_incomplete_eq_false us hc]
    exact ⟨rfl, rfl, hc, by simp only [and_iff_right_of_imp hprogram]⟩
  · have hd : (ofTokens ts).diagnostics = [] := List.prefix_nil.1 (hnil ▸ hpre)
    -- a complete program would leave the first of the tokens `us` to be reported
    cases hc : (ofTokens ts).incomplete with
    | true => exact ⟨rfl, program_eq_none_of_incomplete hc, hd⟩
    | false =>
      have happend := ofTokens_append_of_incomplete_eq_false us hc
      rw [happend, if_pos (rest?_of_diagnostics_eq_nil hc hd)] at hnil
      exact absurd (trailing_eq_nil.1 (List.append_eq_nil_iff.1 hnil).2) hus

end Reading

end Zed
