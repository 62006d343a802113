import ScalarLang.Grammar.Program
import ScalarLang.Fragment.Stmt

/-!
# From source text to stack code

A source text is compiled in phases: its lexemes and grammar, its types, its code. A
phase that has anything to report ends the compilation, so that code is made of
well-typed programs only.
-/

namespace ScalarLang

/-- The phases that reject programs. -/
inductive Phase where
  /-- Lexemes and grammar. -/
  | grammar
  /-- Types. -/
  | types
deriving DecidableEq

/-- The word for a phase in messages. -/
def Phase.name : Phase → String
  | grammar => "syntax"
  | types => "type"

/-- The reports of the phase that rejected a program. -/
structure Rejection where
  phase : Phase
  reports : List Diagnostic

/-- The code for a program that types, or what is wrong with it. -/
def Program.compileChecked (p : Program) : Except Rejection (List Instr) :=
  match p.check with
  | [] =>
    match p.compile with
    | .ok code => .ok code
    | .error d => .error ⟨.types, [d]⟩
  | reports => .error ⟨.types, reports⟩

/-- The code for a source text, or what is wrong with it. -/
def compileSource (file source : String) : Except Rejection (List Instr) :=
  match Program.ofSource file source with
  | .ok p => p.compileChecked
  | .error reports => .error ⟨.grammar, reports⟩

end ScalarLang
