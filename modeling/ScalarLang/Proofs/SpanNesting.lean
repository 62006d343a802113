import ScalarLang.Proofs.Coverage
import ScalarLang.Proofs.Edges
import ScalarLang.Proofs.Statements

/-!
# Ranges nest

The range of a node is put together from what is at hand when the node is made: from the
token that the node starts with or from the range of its first part, which has lost the
parentheses around it, up to the range of its last part or the end of the token read
last. However it is made, it is the range from the first to the last of some ranges that
lie one behind the other on the tokens of the node (`Carries`), and these are the ranges
of its parts, with those of a few tokens between them.

Tokens follow each other without overlap, so ranges that lie one behind the other on
tokens do not overlap either, and what lies between the first and the last is within
both (`Carries.frames`). This is all that is needed of any rule of the grammar.

That tokens follow each other by their offsets takes a text with fewer bytes than an
offset can count. In a longer one a range may stop before it starts
(`Program.spans_cross_far_apart`).

## Main results

* `Program.spans_nest`: in the tree of a text with fewer bytes than an offset can count,
  the range of each node is told by tokens and holds those of its parts, in their order
  and apart from each other.
-/

namespace ScalarLang

/-! ## Trees with nested ranges -/

/-- Whether a range starts and stops at such edges, holds the ranges of its parts, and
these are in order and apart from each other. -/
structure Span.Frames (E : Edges) (s : Span) (parts : List Span) : Prop where
  edges : ∀ range ∈ s :: parts, E.Has range ∧ range.start.offset ≤ range.stop.offset
  inside : ∀ part ∈ parts, s.start.offset ≤ part.start.offset ∧
  part.stop.offset ≤ s.stop.offset
  apart : parts.Pairwise fun a b => a.stop.offset ≤ b.start.offset

/-- Whether the ranges of all nodes of an expression frame those of their parts. -/
def Expr.Nested (E : Edges) : Expr → Prop
  | int _ s | float _ s | bool _ s | string _ s | symbol _ s => s.Frames E []
  | assignment target value s => s.Frames E [target.span, value.span] ∧ value.Nested E
  | unary operator operand s =>
      s.Frames E [operator.span, operand.span] ∧ operand.Nested E
  | binary _ operator left right s =>
    s.Frames E [left.span, operator.span, right.span] ∧ left.Nested E ∧ right.Nested E

mutual

/-- Whether the ranges of all nodes of a statement frame those of their parts. The
variable that a loop declares stands where its first expression has it. -/
def Stmt.Nested (E : Edges) : Stmt → Prop
  | block body s => s.Frames E (body.map Stmt.span) ∧ Stmt.NestedAll E body
  | declaration _ idents s | read idents s => s.Frames E (idents.map Ident.span)
  | write values s => s.Frames E (values.map Expr.span) ∧ ∀ e ∈ values, e.Nested E
  | branch condition consequent alternate s =>
    s.Frames E (condition.span :: consequent.span :: alternate.toList.map Stmt.span) ∧
    condition.Nested E ∧
      consequent.Nested E ∧ Stmt.NestedOption E alternate
  | whileLoop condition body s =>
    s.Frames E [condition.span, body.span] ∧ condition.Nested E ∧ body.Nested E
  | forLoop induction init condition step body s =>
    s.Frames E [init.span, condition.span, step.span, body.span] ∧
      (∀ i ∈ induction, s.Frames E [i.target.span] ∧
        ∃ value range, init = .assignment i.target value range) ∧
      init.Nested E ∧ condition.Nested E ∧ step.Nested E ∧ body.Nested E
  | effect value s => s.Frames E [value.span] ∧ value.Nested E

/-- As `Stmt.Nested`, for a statement that may be missing. -/
def Stmt.NestedOption (E : Edges) : Option Stmt → Prop
  | none => True
  | some s => s.Nested E

/-- As `Stmt.Nested`, for statements in a row. -/
def Stmt.NestedAll (E : Edges) : List Stmt → Prop
  | [] => True
  | s :: rest => s.Nested E ∧ Stmt.NestedAll E rest

end

/-! ## Ranges on tokens -/

/-- The edges of tokens. -/
def Edges.ofTokens (ts : List Token) : Edges :=
  ⟨fun p => ∃ t ∈ ts, t.span.start = p, fun p => ∃ t ∈ ts, t.span.stop = p⟩

/-- Whether tokens with such edges follow each other without overlap, and int literals
among them are made of digits. -/
structure Token.InOrder (E : Edges) (ts : List Token) : Prop where
  edges : ∀ t ∈ ts, E.Has t.span ∧ t.span.start.offset ≤ t.span.stop.offset
  apart : ts.Pairwise fun t u => t.span.stop.offset ≤ u.span.start.offset
  numeral : ∀ t ∈ ts, t.Numeral

/-- Whether a range starts where one of some tokens does and stops, not before that,
where one of them does. -/
structure Span.On (ts : List Token) (s : Span) : Prop where
  start : ∃ t ∈ ts, t.span.start = s.start
  stop : ∃ t ∈ ts, t.span.stop = s.stop
  le : s.start.offset ≤ s.stop.offset

/-- Ranges that lie one behind the other on tokens, possibly with other
tokens around them. -/
inductive Carries : List Token → List Span → Prop
  | nil : Carries [] []
  | skip {ts : List Token} {ranges : List Span} (t : Token) (h : Carries ts ranges) :
      Carries (t :: ts) ranges
  | range {ts us : List Token} {s : Span} {ranges : List Span} (hs : s.On ts)
      (h : Carries us ranges) :
      Carries (ts ++ us) (s :: ranges)

variable {E : Edges} {t : Token} {ts us : List Token} {s first last : Span}
  {ranges parts : List Span}

namespace Token.InOrder

theorem append (h : InOrder E (ts ++ us)) :
    InOrder E ts ∧ InOrder E us ∧
    ∀ t ∈ ts, ∀ u ∈ us, t.span.stop.offset ≤ u.span.start.offset := by
  obtain ⟨hts, hus⟩ := List.forall_mem_append.mp h.edges
  obtain ⟨hts', hus', hboth⟩ := List.pairwise_append.mp h.apart
  obtain ⟨hts'', hus''⟩ := List.forall_mem_append.mp h.numeral
  exact ⟨⟨hts, hts', hts''⟩, ⟨hus, hus', hus''⟩, hboth⟩

theorem left (h : InOrder E (ts ++ us)) : InOrder E ts := h.append.1

theorem right (h : InOrder E (ts ++ us)) : InOrder E us := h.append.2.1

theorem tail (h : InOrder E (t :: ts)) : InOrder E ts :=
  (show InOrder E ([t] ++ ts) from h).right

end Token.InOrder

namespace Span.On

private theorem token (h : t.span.start.offset ≤ t.span.stop.offset) : t.span.On [t] :=
  ⟨⟨t, List.mem_cons_self, rfl⟩, ⟨t, List.mem_cons_self, rfl⟩, h⟩

theorem mono (h : s.On ts) (hsub : ts ⊆ us) : s.On us := by
  obtain ⟨t, ht, hstart⟩ := h.start
  obtain ⟨u, hu, hstop⟩ := h.stop
  exact ⟨⟨t, hsub ht, hstart⟩, ⟨u, hsub hu, hstop⟩, h.le⟩

private theorem has (h : s.On ts) (hts : Token.InOrder E ts) : E.Has s := by
  obtain ⟨t, ht, hstart⟩ := h.start
  obtain ⟨u, hu, hstop⟩ := h.stop
  exact ⟨hstart ▸ (hts.edges t ht).1.1, hstop ▸ (hts.edges u hu).1.2⟩

end Span.On

/-- Of ranges in order, none starts before the first or stops behind the last. -/
theorem Span.between (hle : ∀ s ∈ ranges, s.start.offset ≤ s.stop.offset)
    (hapart : ranges.Pairwise fun a b => a.stop.offset ≤ b.start.offset)
    (hfirst : ranges.head? = some first) (hlast : ranges.getLast? = some last) :
    ∀ s ∈ ranges, first.start.offset ≤ s.start.offset ∧
      s.stop.offset ≤ last.stop.offset := by
  intro s hs
  constructor
  · obtain ⟨rest, rfl⟩ := List.head?_eq_some_iff.mp hfirst
    rcases List.mem_cons.mp hs with rfl | hs
    · exact UInt32.le_refl _
    · exact UInt32.le_trans (hle first List.mem_cons_self)
        (List.rel_of_pairwise_cons hapart hs)
  · obtain ⟨front, rfl⟩ := List.getLast?_eq_some_iff.mp hlast
    have hmem : last ∈ front ++ [last] := List.mem_append_right front List.mem_cons_self
    rcases List.mem_append.mp hs with hs | hs
    · exact UInt32.le_trans ((List.pairwise_append.mp hapart).2.2 s hs last
        List.mem_cons_self) (hle last hmem)
    · rw [List.mem_singleton.mp hs]
      exact UInt32.le_refl _

namespace Carries

theorem append {ranges' : List Span} (h : Carries ts ranges) (h' : Carries us ranges') :
    Carries (ts ++ us) (ranges ++ ranges') := by
  induction h with
  | nil => exact h'
  | skip t _ ih => exact .skip t ih
  | range hs _ ih =>
      rw [List.append_assoc]
      exact .range hs ih

private theorem single (hs : s.On ts) : Carries ts [s] := by
  have h := Carries.range hs .nil
  rwa [List.append_nil] at h

private theorem token (hts : Token.InOrder E (t :: ts)) (h : Carries ts ranges) :
    Carries (t :: ts) (t.span :: ranges) :=
  show Carries ([t] ++ ts) (t.span :: ranges)
    from .range (.token (hts.edges t List.mem_cons_self).2) h

private theorem skips (ts : List Token) (h : Carries us ranges) :
    Carries (ts ++ us) ranges := by
  induction ts with
  | nil => exact h
  | cons t ts ih => exact .skip t ih

/-- Ranges that lie one behind the other are in order and apart from each other. -/
theorem on_and_apart (h : Carries ts ranges) (hts : Token.InOrder E ts) :
    (∀ s ∈ ranges, s.On ts) ∧
    ranges.Pairwise fun a b => a.stop.offset ≤ b.start.offset := by
  induction h with
  | nil => exact ⟨List.forall_mem_nil _, .nil⟩
  | skip t _ ih =>
      obtain ⟨hon, hapart⟩ := ih hts.tail
      exact ⟨fun s hs => (hon s hs).mono (List.subset_cons_self t _), hapart⟩
  | @range ts us s ranges hs _ ih =>
      obtain ⟨-, hus, hboth⟩ := hts.append
      obtain ⟨hon, hapart⟩ := ih hus
      constructor
      · refine List.forall_mem_cons.mpr ⟨hs.mono (List.subset_append_left ts us), ?_⟩
        exact fun r hr => (hon r hr).mono (List.subset_append_right ts us)
      · refine .cons (fun r hr => ?_) hapart
        obtain ⟨t, ht, hstop⟩ := hs.stop
        obtain ⟨u, hu, hstart⟩ := (hon r hr).start
        rw [← hstop, ← hstart]
        exact hboth t ht u hu

/-- The range from the first of these ranges to the last one frames whichever of
them are its parts. -/
theorem frames (h : Carries ts ranges) (hts : Token.InOrder E ts)
    (hfirst : ranges.head? = some first) (hlast : ranges.getLast? = some last)
    (hparts : parts.Sublist ranges) :
    (⟨first.start, last.stop⟩ : Span).Frames E parts ∧
    (⟨first.start, last.stop⟩ : Span).On ts := by
  obtain ⟨hon, hapart⟩ := h.on_and_apart hts
  have hbetween := Span.between (fun s hs => (hon s hs).le) hapart hfirst hlast
  have hfirstOn := hon first (List.mem_of_mem_head? hfirst)
  have hlastOn := hon last (List.mem_of_mem_getLast? hlast)
  have hle :=
    UInt32.le_trans hfirstOn.le (hbetween first (List.mem_of_mem_head? hfirst)).2
  have hwhole : (⟨first.start, last.stop⟩ : Span).On ts :=
    ⟨hfirstOn.start, hlastOn.stop, hle⟩
  refine ⟨⟨?_, fun s hs => hbetween s (hparts.subset hs), hapart.sublist hparts⟩,
    hwhole⟩
  refine List.forall_mem_cons.mpr ⟨⟨hwhole.has hts, hwhole.le⟩, fun s hs => ?_⟩
  have hs := hon s (hparts.subset hs)
  exact ⟨hs.has hts, hs.le⟩

private theorem tokens (hts : Token.InOrder E ts) : Carries ts (ts.map Token.span) := by
  induction ts with
  | nil => exact .nil
  | cons t ts ih => exact .token hts (ih hts.tail)

/-- The range from the first token to the last one frames all ranges on them. -/
theorem framed {opening closing : Token} (h : Carries ts ranges)
    (hts : Token.InOrder E ts) (hfirst : ts.head? = some opening)
    (hlast : ts.getLast? = some closing) :
    (⟨opening.span.start, closing.span.stop⟩ : Span).Frames E ranges ∧
      (⟨opening.span.start, closing.span.stop⟩ : Span).On ts := by
  obtain ⟨hon, hapart⟩ := h.on_and_apart hts
  have hfirst' : (ts.map Token.span).head? = some opening.span := by
    rw [List.head?_map, hfirst]; rfl
  have hlast' : (ts.map Token.span).getLast? = some closing.span := by
    rw [List.getLast?_map, hlast]; rfl
  obtain ⟨htokens, hwhole⟩ :=
    (Carries.tokens hts).frames hts hfirst' hlast' (List.Sublist.refl _)
  refine ⟨⟨?_, fun s hs => ?_, hapart⟩, hwhole⟩
  · refine List.forall_mem_cons.mpr ⟨⟨hwhole.has hts, hwhole.le⟩, fun s hs => ?_⟩
    exact ⟨(hon s hs).has hts, (hon s hs).le⟩
  · obtain ⟨t, ht, hstart⟩ := (hon s hs).start
    obtain ⟨u, hu, hstop⟩ := (hon s hs).stop
    have hfront := (htokens.inside t.span (List.mem_map_of_mem ht)).1
    have hback := (htokens.inside u.span (List.mem_map_of_mem hu)).2
    exact ⟨hstart ▸ hfront, hstop ▸ hback⟩

end Carries

private theorem Token.frames (hts : InOrder E [t]) :
    t.span.Frames E [] ∧ t.span.On [t] :=
  (Carries.token hts .nil).frames hts rfl rfl (List.nil_sublist _)

/-! ## Expressions -/

private theorem Target.on (target : Target) (hts : Token.InOrder E target.tokens) :
    target.ident.span.On target.tokens := by
  induction target with
  | single t hkind => exact (Token.frames hts).2
  | group opening hopening inner closing hclosing ih =>
      have hon := ih hts.tail.left
      exact hon.mono (List.subset_cons_of_subset _ (List.subset_append_left _ _))

/-- The tree of a phrase nests, and it stands on the tokens of the phrase. -/
theorem Phrase.nested {tier : Tier} (p : Phrase tier) (hts : Token.InOrder E p.tokens) :
    p.tree.Nested E ∧ p.tree.span.On p.tokens := by
  induction p with
  | step hnext inner ih => exact ih hts
  | single t e hdenotes =>
      obtain ⟨hframes, hon⟩ := Token.frames hts
      cases hdenotes <;> exact ⟨hframes, hon⟩
  | least sign hsign digits hkind hnumber =>
      have hcarries := Carries.token hts (.token hts.tail .nil)
      exact hcarries.frames hts rfl rfl (List.nil_sublist _)
  | group opening hopening inner closing hclosing ih =>
      obtain ⟨hnested, hon⟩ := ih hts.tail.left
      exact ⟨hnested,
        hon.mono (List.subset_cons_of_subset _ (List.subset_append_left _ _))⟩
  | unary operator hoperator operand ih =>
      obtain ⟨hnested, hon⟩ := ih hts.tail
      have hcarries := Carries.token hts (.single hon)
      obtain ⟨hframes, hwhole⟩ := hcarries.frames hts rfl rfl (List.Sublist.refl _)
      exact ⟨⟨hframes, hnested⟩, hwhole⟩
  | assignment target sign hsign value ih =>
      obtain ⟨hnested, hon⟩ := ih hts.right.tail
      have hcarries := Carries.range (target.on hts.left) (.skip sign (.single hon))
      obtain ⟨hframes, hwhole⟩ := hcarries.frames hts rfl rfl (List.Sublist.refl _)
      exact ⟨⟨hframes, hnested⟩, hwhole⟩
  | binary left operator hoperator hnext right ihleft ihright =>
      obtain ⟨hnested, hon⟩ := ihleft hts.left
      obtain ⟨hnested', hon'⟩ := ihright hts.right.tail
      have hcarries := Carries.range hon (.token hts.right (.single hon'))
      obtain ⟨hframes, hwhole⟩ := hcarries.frames hts rfl rfl (List.Sublist.refl _)
      exact ⟨⟨hframes, hnested, hnested'⟩, hwhole⟩

private theorem Tier.Derives.nested {tier : Tier} {e : Expr} (h : tier.Derives ts e)
    (hts : Token.InOrder E ts) :
    e.Nested E ∧ e.span.On ts := by
  obtain ⟨p, rfl, rfl⟩ := h hts.numeral
  exact p.nested hts

private theorem Expr.Enclosed.nested {e : Expr} (h : e.Enclosed ts)
    (hts : Token.InOrder E ts) :
    e.Nested E ∧ e.span.On ts := by
  cases h with
  | parens hopening h hclosing =>
      obtain ⟨hnested, hon⟩ := h.nested hts.tail.left
      exact ⟨hnested,
        hon.mono (List.subset_cons_of_subset _ (List.subset_append_left _ _))⟩

/-! ## Statements -/

/-- Items with commas between them lie one behind the other if each lies
on its own tokens. -/
theorem Listed.carries {α : Type} {Item : List Token → α → Prop} {P : α → Prop}
    {span : α → Span}
    (hitem : ∀ ts a, Item ts a → Token.InOrder E ts → P a ∧ (span a).On ts)
    {as : List α} (h : Listed Item ts as) (hts : Token.InOrder E ts) :
    (∀ a ∈ as, P a) ∧ Carries ts (as.map span) := by
  induction h with
  | single h =>
      obtain ⟨ha, hon⟩ := hitem _ _ h hts
      exact ⟨List.forall_mem_singleton.mpr ha, .single hon⟩
  | @cons ts us comma a as h hcomma _ ih =>
      obtain ⟨ha, hon⟩ := hitem _ _ h hts.left
      obtain ⟨hrest, hcarries⟩ := ih hts.right.tail
      exact ⟨List.forall_mem_cons.mpr ⟨ha, hrest⟩, .range hon (.skip comma hcarries)⟩

private theorem Listed.carries_idents {idents : List Ident}
    (h : Listed Ident.Phrased ts idents) (hts : Token.InOrder E ts) :
    Carries ts (idents.map Ident.span) := by
  have hitem : ∀ ts x, Ident.Phrased ts x → Token.InOrder E ts → True ∧
      x.span.On ts := by
    intro ts x hx hts
    cases hx
    exact ⟨trivial, (Token.frames hts).2⟩
  exact (h.carries hitem hts).2

/-- The range from one token to another frames what lies between them. -/
theorem Carries.enclosed {opening closing : Token} (h : Carries ts ranges)
    (hts : Token.InOrder E (opening :: (ts ++ [closing]))) :
    (⟨opening.span.start, closing.span.stop⟩ : Span).Frames E ranges ∧
      (⟨opening.span.start, closing.span.stop⟩ : Span).On
        (opening :: (ts ++ [closing])) := by
  have hcarries := h.append (.skip closing .nil)
  rw [List.append_nil] at hcarries
  have hlast : (opening :: (ts ++ [closing])).getLast? = some closing := by
    rw [← List.cons_append, List.getLast?_concat]
  exact Carries.framed (.skip opening hcarries) hts rfl hlast

/-- The range from a word in front of a condition to the last of the ranges behind it
frames the condition and these. -/
theorem Expr.Enclosed.headed {word : Token} {condition : Expr}
    (h : condition.Enclosed ts) (hts : Token.InOrder E (word :: (ts ++ us)))
    (hus : Carries us ranges) (hlast : ranges.getLast? = some last) :
    condition.Nested E ∧
    (⟨word.span.start, last.stop⟩ : Span).Frames E (condition.span :: ranges) ∧
      (⟨word.span.start, last.stop⟩ : Span).On (word :: (ts ++ us)) := by
  obtain ⟨hnested, hon⟩ := h.nested hts.tail.left
  have hcarries := Carries.token hts (.range hon hus)
  have hlast' : (word.span :: condition.span :: ranges).getLast? = some last := by
    obtain ⟨front, rfl⟩ := List.getLast?_eq_some_iff.mp hlast
    rw [← List.cons_append, ← List.cons_append, List.getLast?_concat]
  exact ⟨hnested, hcarries.frames hts rfl hlast' (List.sublist_cons_self _ _)⟩

/-- What is framed by a part is framed by the whole. -/
theorem Span.Frames.trans {inner part : Span} {parts' : List Span}
    (h : s.Frames E parts) (hpart : part ∈ parts) (h' : part.Frames E parts')
    (hinner : inner ∈ parts') : s.Frames E [inner] := by
  obtain ⟨hstart, hstop⟩ := h.inside part hpart
  obtain ⟨hstart', hstop'⟩ := h'.inside inner hinner
  refine ⟨?_, ?_, List.pairwise_singleton _ _⟩
  · have hs := h.edges s List.mem_cons_self
    exact List.forall_mem_cons.mpr ⟨hs,
      List.forall_mem_singleton.mpr (h'.edges inner (List.mem_cons_of_mem _ hinner))⟩
  · exact List.forall_mem_singleton.mpr ⟨UInt32.le_trans hstart hstart',
      UInt32.le_trans hstop' hstop⟩

private theorem Induction.Phrased.framed {induction : Option Induction} {init : Expr}
    (h : Phrased us induction init) (hinit : init.Nested E) (hframes : s.Frames E parts)
    (hpart : init.span ∈ parts) :
    ∀ i ∈ induction, s.Frames E [i.target.span] ∧
      ∃ value range, init = .assignment i.target value range := by
  cases h with
  | untyped => exact fun i hi => nomatch hi
  | typed hword =>
      intro i hi
      cases hi
      exact ⟨hframes.trans hpart hinit.1 List.mem_cons_self, _, _, rfl⟩

/-- Statements nest, and they lie one behind the other on their tokens. -/
theorem Stmt.Phrased.nested {ss : List Stmt} (h : Phrased ts ss)
    (hts : Token.InOrder E ts) :
    NestedAll E ss ∧ Carries ts (ss.map Stmt.span) := by
  induction h with
  | nil => exact ⟨trivial, .nil⟩
  | cons _ _ ihfirst ihrest =>
      obtain ⟨⟨hfirst, -⟩, hcarries⟩ := ihfirst hts.left
      obtain ⟨hrest, hcarries'⟩ := ihrest hts.right
      exact ⟨⟨hfirst, hrest⟩, hcarries.append hcarries'⟩
  | effect hvalue hsemi =>
      obtain ⟨hnested, hon⟩ := hvalue.nested hts.left
      have hcarries := Carries.range hon (.token hts.right .nil)
      obtain ⟨hframes, hwhole⟩ :=
        hcarries.frames hts rfl rfl (List.sublist_append_left [_] _)
      exact ⟨⟨⟨hframes, hnested⟩, trivial⟩, .single hwhole⟩
  | declaration hword hidents hsemi =>
      obtain ⟨hframes, hwhole⟩ := (hidents.carries_idents hts.tail.left).enclosed hts
      exact ⟨⟨hframes, trivial⟩, .single hwhole⟩
  | read hword hidents hsemi =>
      obtain ⟨hframes, hwhole⟩ := (hidents.carries_idents hts.tail.left).enclosed hts
      exact ⟨⟨hframes, trivial⟩, .single hwhole⟩
  | write hword hvalues hsemi =>
      obtain ⟨hnested, hcarries⟩ :=
        hvalues.carries (fun _ _ h => h.nested) hts.tail.left
      obtain ⟨hframes, hwhole⟩ := hcarries.enclosed hts
      exact ⟨⟨⟨hframes, hnested⟩, trivial⟩, .single hwhole⟩
  | empty hsemi =>
      obtain ⟨hframes, hwhole⟩ := Token.frames hts
      exact ⟨⟨⟨hframes, trivial⟩, trivial⟩, .single hwhole⟩
  | block hopening _ hclosing ih =>
      obtain ⟨hnested, hcarries⟩ := ih hts.tail.left
      obtain ⟨hframes, hwhole⟩ := hcarries.enclosed hts
      exact ⟨⟨⟨hframes, hnested⟩, trivial⟩, .single hwhole⟩
  | branch hword hcondition _ ih =>
      obtain ⟨⟨hconsequent, -⟩, hcarries⟩ := ih hts.tail.right
      obtain ⟨hnested, hframes, hwhole⟩ := hcondition.headed hts hcarries rfl
      exact ⟨⟨⟨hframes, hnested, hconsequent, trivial⟩, trivial⟩, .single hwhole⟩
  | @alternative word other ts us vs condition consequent alternate hword hcondition _
      hother _ ih ih' =>
      obtain ⟨⟨hconsequent, -⟩, hcarries⟩ := ih hts.tail.right.left
      obtain ⟨⟨halternate, -⟩, hcarries'⟩ := ih' hts.tail.right.right.tail
      have hbehind := hcarries.append (.skip other hcarries')
      obtain ⟨hnested, hframes, hwhole⟩ := hcondition.headed hts hbehind rfl
      exact ⟨⟨⟨hframes, hnested, hconsequent, halternate⟩, trivial⟩, .single hwhole⟩
  | whileLoop hword hcondition _ ih =>
      obtain ⟨⟨hbody, -⟩, hcarries⟩ := ih hts.tail.right
      obtain ⟨hnested, hframes, hwhole⟩ := hcondition.headed hts hcarries rfl
      exact ⟨⟨⟨hframes, hnested, hbody⟩, trivial⟩, .single hwhole⟩
  | @forLoop word opening first second closing types ts us vs ws induction init
      condition step body hword hopening
      hinduction hinit hfirst hcondition hsecond hstep hclosing _ ih =>
      have hinner := hts.tail.tail.right
      obtain ⟨hinit, hon⟩ := hinit.nested hinner.left
      obtain ⟨hcondition, hon'⟩ := hcondition.nested hinner.right.tail.left
      obtain ⟨hstep, hon''⟩ := hstep.nested hinner.right.tail.right.tail.left
      obtain ⟨⟨hbody, -⟩, hcarries⟩ := ih hinner.right.tail.right.tail.right.tail
      have hbehind :=
        Carries.range hon' (.skip second (.range hon'' (.skip closing hcarries)))
      have hcarries := Carries.token hts
        (.skip opening (.skips types (.range hon (.skip first hbehind))))
      obtain ⟨hframes, hwhole⟩ :=
        hcarries.frames hts rfl rfl (List.sublist_cons_self _ _)
      have htarget := hinduction.framed hinit hframes List.mem_cons_self
      exact ⟨⟨⟨hframes, htarget, hinit, hcondition, hstep, hbody⟩, trivial⟩,
        .single hwhole⟩

/-! ## Programs -/

/-- Whether all ranges in a program nest, where its text has these tokens and the end
behind them. The range of the program goes from the first token to the end. -/
structure Program.Nested (body : List Token) (last : Token) (p : Program) : Prop where
  start : ∀ t ∈ (body ++ [last]).head?, p.span.start = t.span.start
  stop : p.span.stop = last.span.stop
  frames : p.span.Frames (.ofTokens (body ++ [last])) (p.body.map Stmt.span)
  statements : Stmt.NestedAll (.ofTokens body) p.body

namespace Token

private theorem Covers.exists_body {p : Position} {cs : List Char} {tokens : List Token}
    (h : Covers p cs tokens) :
    ∃ body q, tokens = body ++ [.eof q] ∧ ∀ t ∈ body, t.kind ≠ .eof := by
  induction h with
  | eof => exact ⟨[], _, rfl, List.forall_mem_nil _⟩
  | token _ _ hkind _ _ _ ih =>
      obtain ⟨body, q, rfl, hbody⟩ := ih
      exact ⟨_ :: body, q, rfl, List.forall_mem_cons.mpr ⟨hkind, hbody⟩⟩

/-- The tokens of a text follow each other without overlap, the end too. -/
theorem Covers.apart {p : Position} {cs : List Char} {tokens : List Token}
    (h : Covers p cs tokens) (hfits : p.Fits cs) :
    (∀ t ∈ tokens, p.offset ≤ t.span.start.offset ∧
      t.span.start.offset ≤ t.span.stop.offset) ∧
      tokens.Pairwise fun t u => t.span.stop.offset ≤ u.span.start.offset := by
  have hle {p : Position} {cs : List Char} (hfits : p.Fits cs) :
      p.offset ≤ (p.afterAll cs).offset := by
    rw [UInt32.le_iff_toNat_le, hfits.toNat_offset]
    exact Nat.le_add_right _ _
  induction h with
  | @eof p gap hgap =>
      exact ⟨List.forall_mem_singleton.mpr ⟨hle hfits, UInt32.le_refl _⟩,
        List.pairwise_singleton _ _⟩
  | @token p gap text rest t ts hgap hne hkind hspells hspan _ ih =>
      have hstart : p.offset ≤ t.span.start.offset := hspan ▸ hle hfits.left
      have hstop : t.span.start.offset ≤ t.span.stop.offset := by
        rw [hspan, Position.afterAll_append]
        exact hle hfits.behind.left
      rw [← List.append_assoc] at hfits
      obtain ⟨hrest, hapart⟩ := ih hfits.behind
      have hbehind : ∀ u ∈ ts, t.span.stop.offset ≤ u.span.start.offset := by
        rw [hspan]
        exact fun u hu => (hrest u hu).1
      refine ⟨List.forall_mem_cons.mpr ⟨⟨hstart, hstop⟩,
        fun u hu => ⟨?_, (hrest u hu).2⟩⟩, .cons hbehind hapart⟩
      exact UInt32.le_trans hstart (UInt32.le_trans hstop (hbehind u hu))

private theorem InOrder.ofTokens (h : InOrder E ts) : InOrder (.ofTokens ts) ts :=
  ⟨fun t ht => ⟨⟨⟨t, ht, rfl⟩, ⟨t, ht, rfl⟩⟩, (h.edges t ht).2⟩, h.apart, h.numeral⟩

private theorem inOrder_of_scan {file source : String}
    (hsize : source.utf8ByteSize < UInt32.size) {tokens : List Token}
    (h : scan file source = .ok tokens) :
    InOrder (.ofTokens tokens) tokens := by
  obtain ⟨hle, hapart⟩ := (covers_of_scan h).apart (Position.fits_first hsize file)
  exact ⟨fun t ht => ⟨⟨⟨t, ht, rfl⟩, ⟨t, ht, rfl⟩⟩, (hle t ht).2⟩, hapart,
    numeral_of_scan h⟩

end Token

/-- Reading comes to the end only, which is no token of a statement. -/
theorem Cursor.eq_of_tokens_eq_append {c : Cursor} {body : List Token} {last : Token}
    (h : body ++ [last] = ts ++ c.tokens) (hkind : c.current.kind = .eof)
    (hbody : ∀ t ∈ body, t.kind ≠ .eof) :
    ts = body ∧ c.current = last := by
  rcases List.eq_nil_or_concat c.ahead with hnil | ⟨front, t, hconcat⟩
  · rw [tokens, hnil] at h
    obtain ⟨rfl, hlast⟩ := List.append_inj' h rfl
    exact ⟨rfl, (List.cons.inj hlast).1.symm⟩
  · rw [tokens, hconcat, List.concat_eq_append, ← List.cons_append, ← List.append_assoc]
      at h
    obtain ⟨rfl, -⟩ := List.append_inj' h rfl
    exact absurd hkind (hbody _ (List.mem_append_right ts List.mem_cons_self))

/-- The ranges in the tree of a text with fewer bytes than an offset can count nest.
Each node starts where a token starts and stops where a token stops, the program at
the end; each has its parts within its range, in the order of the text and apart
from each other; and the variable that a loop declares stands where its first
expression assigns to it. -/
theorem Program.spans_nest {file source : String}
    (hsize : source.utf8ByteSize < UInt32.size) {p : Program}
    (h : ofSource file source = .ok p) :
    ∃ body last, Token.scan file source = .ok (body ++ [last]) ∧ last.kind = .eof ∧
      (∀ t ∈ body, t.kind ≠ .eof) ∧ p.Nested body last := by
  obtain ⟨tokens, hscan, hread⟩ := exists_tokens_of_ofSource h
  obtain ⟨body, q, rfl, hbody⟩ := (Token.covers_of_scan hscan).exists_body
  refine ⟨body, .eof q, hscan, rfl, hbody, ?_⟩
  have hts := Token.inOrder_of_scan hsize hscan
  obtain ⟨ts, stop, htokens, hkind, hphrased, hspan⟩ := phrased_of_ofTokens hread
  rw [Cursor.tokens_ofTokens_of_last file body rfl] at htokens
  obtain ⟨rfl, hstop⟩ := Cursor.eq_of_tokens_eq_append htokens hkind hbody
  have hfirst : (ts ++ [Token.eof q]).head? =
      some (Cursor.ofTokens file (ts ++ [.eof q])).current :=
    congrArg List.head? (Cursor.tokens_ofTokens_of_last file ts rfl).symm
  have hend : stop.position = q := congrArg (·.span.start) hstop
  have hcarries := (hphrased.nested hts.left).2.append (.skip (.eof q) .nil)
  rw [List.append_nil] at hcarries
  have hframes := (hcarries.framed hts hfirst List.getLast?_concat).1
  constructor
  · intro t ht
    rw [hspan]
    exact congrArg (·.span.start) (Option.some.inj (hfirst.symm.trans ht))
  · rw [hspan]
    exact hend
  · rw [hspan, hend]
    exact hframes
  · exact (hphrased.nested hts.left.ofTokens).1

/-- A statement that starts behind a parenthesis, a sign that belongs to its literal, a
loop that declares its variable and a statement of a semicolon. -/
theorem Program.spans_nest_around_parentheses :
    "int i;(i)=-2147483648;for(int j=(0);j<2;j=j+1){;write(i),j;}".utf8ByteSize <
      UInt32.size ∧ ∃ p body last,
        ofSource "t" "int i;(i)=-2147483648;for(int j=(0);j<2;j=j+1){;write(i),j;}" =
          .ok p ∧
        p.body.map (fun s => (s.span.start.offset, s.span.stop.offset)) =
          [(0, 6), (7, 22), (22, 60)] ∧
        Token.scan "t" "int i;(i)=-2147483648;for(int j=(0);j<2;j=j+1){;write(i),j;}" =
          .ok (body ++ [last]) ∧
        p.Nested body last := by
  have hsize :
      "int i;(i)=-2147483648;for(int j=(0);j<2;j=j+1){;write(i),j;}".utf8ByteSize <
        UInt32.size := by decide
  obtain ⟨p, hp, hranges⟩ : ∃ p,
      ofSource "t" "int i;(i)=-2147483648;for(int j=(0);j<2;j=j+1){;write(i),j;}" =
        .ok p ∧
      p.body.map (fun s => (s.span.start.offset, s.span.stop.offset)) =
        [(0, 6), (7, 22), (22, 60)] := ⟨_, rfl, rfl⟩
  obtain ⟨body, last, hscan, -, -, hnested⟩ := spans_nest hsize hp
  exact ⟨hsize, p, body, last, hp, hranges, hscan, hnested⟩

/-- The range of a block whose braces stand too far apart for offsets stops
before it starts. -/
theorem Program.spans_cross_far_apart :
    (String.ofList (Source.apart '{' '}')).utf8ByteSize = UInt32.size + 2 ∧
      ∃ p, ofSource "a" (String.ofList (Source.apart '{' '}')) = .ok p ∧
        p.body.map (fun s => (s.span.start.offset, s.span.stop.offset)) = [(65536, 2)] ∧
        ¬ ∃ body last, Token.scan "a" (String.ofList (Source.apart '{' '}')) =
          .ok (body ++ [last]) ∧ p.Nested body last := by
  have hapart : Piece.Apart '{' '}' (.token .openCurly) (.token .closeCurly) :=
    ⟨fun _ => rfl, fun _ => rfl, by decide, by decide⟩
  have hread (opening closing : Span) (q : Position) :
      Program.ofTokens "a" [⟨.openCurly, Piece.value .openCurly ['{'], opening⟩,
        ⟨.closeCurly, Piece.value .closeCurly ['}'], closing⟩, .eof q] =
      .ok ⟨[.block [] ⟨opening.start, closing.stop⟩], ⟨opening.start, q⟩⟩ := rfl
  have hsource : ofSource "a" (String.ofList (Source.apart '{' '}')) = _ :=
    (congrArg (· >>= ofTokens "a") (Token.scan_apart hapart "a")).trans (hread _ _ _)
  refine ⟨hapart.utf8ByteSize_eq, _, hsource, rfl, ?_⟩
  rintro ⟨body, last, -, hnested⟩
  have hblock := hnested.statements.1.1.edges _ List.mem_cons_self
  exact absurd hblock.2 (by decide)

end ScalarLang
