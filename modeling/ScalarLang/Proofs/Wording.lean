import ScalarLang.Proofs.Moving
import ScalarLang.Proofs.MovingTrees

/-!
# Only the lexemes of a text are compiled

How a text is laid out, where it has blanks, line breaks and comments and how it
spells the escapes in its strings, decides where its tokens stand and nothing else
about them. Two texts with the same lexemes in the same order therefore have tokens
that are alike once their positions are forgotten. Forgetting positions commutes with
every phase (`Program.ofTokens_move`, `Program.compileChecked_move`), so the two
programs and whatever is wrong with them are alike in the same sense, and code has no
positions to forget.

## Main results

* `compileSource_congr`: texts with the same lexemes compile to the same code, or are
  rejected in the same phase for the same causes.
-/

namespace ScalarLang

open ScalarLang.Located

/-- The end of a text is a token, so that no text is without tokens. -/
theorem Token.scan_ne_nil {file source : String} {tokens : List Token}
    (h : Token.scan file source = .ok tokens) : tokens ≠ [] := by
  rw [Token.eq_of_scan h]
  exact List.append_ne_nil_of_right_ne_nil _ (List.cons_ne_nil _ _)

/-- A text with tokens is compiled from them. -/
theorem compileSource_of_scan {file source : String} {tokens : List Token}
    (h : Token.scan file source = .ok tokens) :
    compileSource file source = match Program.ofTokens file tokens with
      | .ok p => p.compileChecked
      | .error reports => .error ⟨.grammar, reports⟩ := by
  unfold compileSource Program.ofSource
  rw [h]
  rfl

/-- Rejections that differ in their places only. -/
def Rejection.Alike (r r' : Rejection) : Prop :=
  r.phase = r'.phase ∧ r.reports.map Diagnostic.cause = r'.reports.map Diagnostic.cause

private theorem Diagnostic.causes_eq {reports reports' : List Diagnostic}
    (h : unplaced reports = unplaced reports') :
    reports.map Diagnostic.cause = reports'.map Diagnostic.cause := by
  have hkept : ∀ ds : List Diagnostic, (unplaced ds).map cause = ds.map cause :=
    fun _ => List.map_map
  have hcauses := congrArg (List.map cause) h
  rwa [hkept, hkept] at hcauses

/-- Outcomes that are alike once positions are forgotten are the same code or
alike as rejections. -/
theorem alike_of_unplaced_eq {outcome outcome' : Except Rejection (List Instr)}
    (h : unplaced outcome = unplaced outcome') :
    (∃ code, outcome = .ok code ∧ outcome' = .ok code) ∨
      ∃ r r', outcome = .error r ∧ outcome' = .error r' ∧ r.Alike r' := by
  cases outcome with
  | ok code =>
      cases outcome' with
      | ok code' =>
          have hcode : code = code' := Except.ok.inj h
          exact .inl ⟨code, rfl, hcode ▸ rfl⟩
      | error r' => cases h
  | error r =>
      cases outcome' with
      | ok code' => cases h
      | error r' =>
          have hr : unplaced r = unplaced r' := Except.error.inj h
          have hphase : (unplaced r).phase = (unplaced r').phase :=
            congrArg Rejection.phase hr
          have hreports : (unplaced r).reports = (unplaced r').reports :=
            congrArg Rejection.reports hr
          exact .inr ⟨r, r', rfl, rfl, hphase, Diagnostic.causes_eq hreports⟩

/-- Two texts with the same lexemes in the same order compile to the same code, or both
are rejected in the same phase, with the same causes in the same order. -/
theorem compileSource_congr {file file' source source' : String}
    {tokens tokens' : List Token} (h : Token.scan file source = .ok tokens)
    (h' : Token.scan file' source' = .ok tokens')
    (hlexemes : tokens.map Token.lexeme = tokens'.map Token.lexeme) :
    (∃ code, compileSource file source = .ok code ∧
      compileSource file' source' = .ok code) ∨
      ∃ r r', compileSource file source = .error r ∧
        compileSource file' source' = .error r' ∧ r.Alike r' := by
  apply alike_of_unplaced_eq
  have hread : unplaced (Program.ofTokens file tokens) =
      unplaced (Program.ofTokens file' tokens') := by
    have htokens : unplaced tokens = unplaced tokens' :=
      Token.unplaced_eq_iff.mpr hlexemes
    unfold unplaced at htokens ⊢
    rw [← Program.ofTokens_move (Token.scan_ne_nil h) file "", htokens,
      Program.ofTokens_move (Token.scan_ne_nil h') file' ""]
  rw [compileSource_of_scan h, compileSource_of_scan h']
  cases hp : Program.ofTokens file tokens with
  | ok p =>
      cases hp' : Program.ofTokens file' tokens' with
      | ok p' =>
          rw [hp, hp'] at hread
          have hprogram : unplaced p = unplaced p' := Except.ok.inj hread
          show unplaced p.compileChecked = unplaced p'.compileChecked
          unfold unplaced at hprogram ⊢
          rw [← Program.compileChecked_move, hprogram, Program.compileChecked_move]
      | error reports' =>
          rw [hp, hp'] at hread
          cases hread
  | error reports =>
      cases hp' : Program.ofTokens file' tokens' with
      | ok p' =>
          rw [hp, hp'] at hread
          cases hread
      | error reports' =>
          rw [hp, hp'] at hread
          have hreports : unplaced reports = unplaced reports' := Except.error.inj hread
          exact congrArg (fun ds =>
            (Except.error ⟨.grammar, ds⟩ : Except Rejection (List Instr))) hreports

/-- The same statements on one line and on three, with a comment and with a tab
spelled in two ways. -/
theorem compileSource_congr_of_spread :
    ∃ code, compileSource "a" "string s; s = \"\\t\"; write s;" = .ok code ∧
      compileSource "b" "string s;\n  s = \"\t\" ; // a tab\nwrite s;\n" =
        .ok code := by
  have h : Token.scan "a" "string s; s = \"\\t\"; write s;" = .ok _ := rfl
  have h' : Token.scan "b" "string s;\n  s = \"\t\" ; // a tab\nwrite s;\n" = .ok _ :=
    rfl
  obtain hcode | ⟨r, -, hr, -⟩ := compileSource_congr h h' (by decide +kernel)
  · exact hcode
  · cases hr

end ScalarLang
