import Backend.Codegen.Literals
import Mathlib.Data.List.Forall2

/-! # Positions in a program

A position leads from a program down to one of its parts: it says at each level which part to
take next, counted in the order in which the parts stand in the source. Comparing positions
number by number gives the order of the source. The literals of a program are listed in this
order, whatever they are nested in, so removing repetitions keeps the first occurrence of
each text.
-/

namespace Backend

/-- A program, or a part of one. -/
inductive Fragment where
  | program (p : Program)
  | item (item : Item)
  | clause {f : Form} (c : Clause f)
  | node {l : Layer} (x : Node l)

namespace Fragment

/-- The parts of an expression from left to right. The target of an assignment stands before
the value. -/
def ofNode {l : Layer} : Node l → List Fragment
  | .assign _ t v => [node t, node v]
  | .comp _ x => [node x]
  | .setElem _ _ i => [node i]
  | .sum _ x => [node x]
  | .rel _ a _ b => [node a, node b]
  | .term _ x => [node x]
  | .add _ a _ b => [node a, node b]
  | .unary _ x => [node x]
  | .mul _ a _ b => [node a, node b]
  | .neg _ x => [node x]
  | .addrOf _ x => [node x]
  | .deref _ x => [node x]
  | .factor _ x => [node x]
  | .paren _ x => [node x]
  | .elem _ _ i => [node i]
  | .call _ _ as => [node as]
  | .cons e es => [node e, node es]
  | .setVar .. | .setDeref .. | .var .. | .num .. | .str .. | .read .. | .nil => []

/-- The parts of a statement in order. -/
def ofClause {f : Form} : Clause f → List Fragment
  | .eval _ e => e.toList.map node
  | .braces _ b => [clause b]
  | .ifElse _ c t e => [node c, clause t, clause e]
  | .loop _ c s => [node c, clause s]
  | .ret _ e => e.toList.map node
  | .write _ e => e.toList.map node
  | .present s => [clause s]
  | .cons s rest => [clause s, clause rest]
  | .block _ _ stmts _ _ => [clause stmts]
  | .absent | .nil => []

def parts : Fragment → List Fragment
  | .program p => p.items.map item
  | .item (.var _) => []
  | .item (.func f) => [clause f.body]
  | .clause c => ofClause c
  | .node x => ofNode x

/-- The part at a position. -/
def at? : Fragment → List Nat → Option Fragment
  | x, [] => some x
  | x, i :: rest => x.parts[i]?.bind fun y => y.at? rest

/-- A string literal with the given text stands at the position. -/
def LiteralAt (x : Fragment) (position : List Nat) (text : String) : Prop :=
  ∃ m, x.at? position = some (node (.str m text))

/-- The first position is the earlier one in the source. -/
def Earlier : List Nat → List Nat → Prop := List.Lex (· < ·)

/-- The first text occurs earlier than the second one ever does. -/
def OccursBefore (x : Fragment) (first second : String) : Prop :=
  ∃ position, x.LiteralAt position first ∧
    ∀ later, x.LiteralAt later second → Earlier position later

/-- The texts of all literals of a part, in the order of the source. -/
def Lists (x : Fragment) (texts : List String) : Prop :=
  ∃ found : List (List Nat × String), found.map Prod.snd = texts ∧
    found.Pairwise (fun a b => Earlier a.1 b.1) ∧
    ∀ position text, (position, text) ∈ found ↔ x.LiteralAt position text

theorem literalAt_cons {x : Fragment} {i : Nat} {rest : List Nat} {text : String} :
    x.LiteralAt (i :: rest) text ↔ ∃ y, x.parts[i]? = some y ∧ y.LiteralAt rest text := by
  simp only [LiteralAt, at?, Option.bind_eq_some_iff]
  constructor
  · rintro ⟨m, y, hy, hm⟩
    exact ⟨y, hy, m, hm⟩
  · rintro ⟨y, hy, m, hm⟩
    exact ⟨m, y, hy, hm⟩

theorem lists_literal (m : Mark) (text : String) : (node (.str m text)).Lists [text] := by
  refine ⟨[([], text)], rfl, List.pairwise_singleton _ _, ?_⟩
  intro position found
  rw [List.mem_singleton, Prod.mk.injEq]
  cases position with
  | nil =>
      constructor
      · rintro ⟨-, rfl⟩
        exact ⟨m, rfl⟩
      · rintro ⟨_, h⟩
        cases h
        exact ⟨rfl, rfl⟩
  | cons i rest =>
      rw [literalAt_cons]
      simp [parts, ofNode]

/-- The literals of some parts one behind the other. The parts are numbered from `start`, so
that the list can be taken apart from its front. -/
theorem exists_listed {xs : List Fragment} {texts : List (List String)}
    (h : List.Forall₂ Lists xs texts) (start : Nat) :
    ∃ found : List (List Nat × String), found.map Prod.snd = texts.flatten ∧
      found.Pairwise (fun a b => Earlier a.1 b.1) ∧
      ∀ position text, (position, text) ∈ found ↔
        ∃ i y rest, position = (start + i) :: rest ∧ xs[i]? = some y ∧ y.LiteralAt rest text := by
  induction h generalizing start with
  | nil => exact ⟨[], rfl, .nil, by simp⟩
  | @cons x own xs others hx _ ih =>
      obtain ⟨first, rfl, hsorted, hfirst⟩ := hx
      obtain ⟨found, hfound, hsorted', hothers⟩ := ih (start + 1)
      refine ⟨first.map (Prod.map (List.cons start) id) ++ found, ?_, ?_, ?_⟩
      · simp [hfound]
      · rw [List.pairwise_append]
        refine ⟨?_, hsorted', ?_⟩
        · rw [List.pairwise_map]
          exact hsorted.imp fun hearlier => .cons hearlier
        · intro a ha b hb
          obtain ⟨a, -, rfl⟩ := List.mem_map.mp ha
          obtain ⟨i, y, rest, hposition, -⟩ := (hothers b.1 b.2).mp hb
          rw [hposition]
          exact .rel (by omega)
      · intro position text
        rw [List.mem_append, hothers]
        constructor
        · rintro (hmem | ⟨i, y, rest, rfl, hy, htext⟩)
          · obtain ⟨⟨rest, own⟩, hrest, heq⟩ := List.mem_map.mp hmem
            cases heq
            exact ⟨0, x, rest, rfl, rfl, (hfirst rest own).mp hrest⟩
          · exact ⟨i + 1, y, rest, by rw [Nat.add_right_comm, Nat.add_assoc], hy, htext⟩
        · rintro ⟨i, y, rest, rfl, hy, htext⟩
          cases i with
          | zero =>
              cases hy
              exact .inl (List.mem_map.mpr ⟨(rest, text), (hfirst rest text).mpr htext, rfl⟩)
          | succ i =>
              exact .inr ⟨i, y, rest, by rw [Nat.add_right_comm, Nat.add_assoc], hy, htext⟩

/-- A part that is no literal has the literals of its own parts. -/
theorem lists_of_parts {x : Fragment} {texts : List (List String)} {all : List String}
    (hx : ∀ m text, x ≠ node (.str m text)) (h : List.Forall₂ Lists x.parts texts)
    (hall : texts.flatten = all) : x.Lists all := by
  obtain ⟨found, hfound, hsorted, hmem⟩ := exists_listed h 0
  refine ⟨found, hfound.trans hall, hsorted, ?_⟩
  intro position text
  rw [hmem]
  cases position with
  | nil =>
      constructor
      · rintro ⟨i, y, rest, heq, -⟩
        cases heq
      · rintro ⟨m, hm⟩
        exact absurd (Option.some.inj hm) (hx m text)
  | cons i rest =>
      rw [literalAt_cons]
      constructor
      · rintro ⟨j, y, _, heq, hy, htext⟩
        rw [Nat.zero_add] at heq
        cases heq
        exact ⟨y, hy, htext⟩
      · rintro ⟨y, hy, htext⟩
        exact ⟨i, y, rest, by rw [Nat.zero_add], hy, htext⟩

end Fragment

open Fragment (Lists lists_of_parts lists_literal)

theorem Node.lists_literals {l : Layer} (x : Node l) : (Fragment.node x).Lists x.literals := by
  induction x with
  | str m text => exact lists_literal m text
  | setVar | setDeref | var | num | read | nil => exact lists_of_parts (by rintro _ _ ⟨⟩) .nil rfl
  | comp m x ih | sum m x ih | term m x ih | unary m x ih | neg m x ih | addrOf m x ih
  | deref m x ih | factor m x ih | paren m x ih | setElem m y x ih | elem m y x ih
  | call m y x ih =>
      exact lists_of_parts (by rintro _ _ ⟨⟩) (.cons ih .nil) (by simp [literals])
  | assign m a b iha ihb | rel m a op b iha ihb | add m a op b iha ihb | mul m a op b iha ihb
  | cons a b iha ihb =>
      exact lists_of_parts (by rintro _ _ ⟨⟩) (.cons iha (.cons ihb .nil)) (by simp [literals])

theorem Clause.lists_literals {f : Form} (c : Clause f) :
    (Fragment.clause c).Lists c.literals := by
  induction c with
  | absent | nil => exact lists_of_parts (by rintro _ _ ⟨⟩) .nil rfl
  | eval line e | ret line e | write line e =>
      cases e with
      | none => exact lists_of_parts (by rintro _ _ ⟨⟩) .nil rfl
      | some e =>
          exact lists_of_parts (by rintro _ _ ⟨⟩) (.cons e.lists_literals .nil)
            (by simp [literals])
  | braces line s ih | present s ih | block line ids s size span ih =>
      exact lists_of_parts (by rintro _ _ ⟨⟩) (.cons ih .nil) (by simp [literals])
  | cons s t ihs iht =>
      exact lists_of_parts (by rintro _ _ ⟨⟩) (.cons ihs (.cons iht .nil)) (by simp [literals])
  | loop line e s ih =>
      exact lists_of_parts (by rintro _ _ ⟨⟩) (.cons e.lists_literals (.cons ih .nil))
        (by simp [literals])
  | ifElse line e s t ihs iht =>
      exact lists_of_parts (by rintro _ _ ⟨⟩)
        (.cons e.lists_literals (.cons ihs (.cons iht .nil))) (by simp [literals])

def Item.literals : Item → List String
  | .var _ => []
  | .func f => f.body.literals

theorem Item.lists_literals (item : Item) : (Fragment.item item).Lists item.literals := by
  cases item with
  | var id => exact lists_of_parts (by rintro _ _ ⟨⟩) .nil rfl
  | func f =>
      exact lists_of_parts (by rintro _ _ ⟨⟩) (.cons f.body.lists_literals .nil)
        (by simp [literals])

namespace Program

theorem literals_eq_flatten (p : Program) : p.literals = (p.items.map Item.literals).flatten := by
  rw [literals, functions]
  induction p.items with
  | nil => rfl
  | cons item rest ih =>
      cases item with
      | var id => simpa [Item.literals] using ih
      | func f => simpa [Item.literals] using ih

/-- The literals of a program are listed in the order of the source. -/
theorem lists_literals (p : Program) : (Fragment.program p).Lists p.literals := by
  apply lists_of_parts (by rintro _ _ ⟨⟩) _ p.literals_eq_flatten.symm
  rw [Fragment.parts, List.forall₂_map_left_iff, List.forall₂_map_right_iff]
  exact List.forall₂_same.mpr fun item _ => item.lists_literals

end Program

/-! ## First occurrences -/

/-- When repetitions are removed from texts that were found in some order, each text that is
left was found before every occurrence of those behind it. -/
theorem pairwise_eraseDups {α : Type} {R : α → α → Prop} {found : List (α × String)}
    (h : found.Pairwise fun a b => R a.1 b.1) :
    (found.map Prod.snd).eraseDups.Pairwise fun first second =>
      ∃ a, (a, first) ∈ found ∧ ∀ b, (b, second) ∈ found → R a b := by
  induction hlength : found.length using Nat.strongRecOn generalizing found with
  | ind n ih =>
  cases found with
  | nil => simp
  | cons entry rest =>
      obtain ⟨a, text⟩ := entry
      obtain ⟨hfirst, hrest⟩ := List.pairwise_cons.mp h
      -- What is left behind the first text comes from the entries with another text.
      have hothers : (rest.map Prod.snd).filter (fun t => !t == text) =
          (rest.filter fun entry => !entry.2 == text).map Prod.snd := by
        rw [List.filter_map]
        rfl
      rw [List.map_cons, List.eraseDups_cons, hothers, List.pairwise_cons]
      have hne {t : String} (ht : t ∈ ((rest.filter fun entry => !entry.2 == text).map
          Prod.snd).eraseDups) : t ≠ text := by
        rw [List.mem_eraseDups, List.mem_map] at ht
        obtain ⟨entry, hentry, rfl⟩ := ht
        simpa using (List.mem_filter.mp hentry).2
      have hmem {b : α} {t : String} (ht : t ≠ text) (hb : (b, t) ∈ (a, text) :: rest) :
          (b, t) ∈ rest := by
        rcases List.mem_cons.mp hb with heq | hb
        · exact absurd (congrArg Prod.snd heq) ht
        · exact hb
      constructor
      · intro t ht
        refine ⟨a, List.mem_cons_self, ?_⟩
        intro b hb
        exact hfirst (b, t) (hmem (hne ht) hb)
      · have hshorter : (rest.filter fun entry => !entry.2 == text).length < n := by
          rw [← hlength, List.length_cons]
          exact Nat.lt_succ_of_le (List.length_filter_le _ _)
        apply (ih _ hshorter (hrest.filter _) rfl).imp_of_mem
        rintro first second - hsecond ⟨b, hb, hbefore⟩
        refine ⟨b, List.mem_cons_of_mem _ (List.mem_filter.mp hb).1, ?_⟩
        intro c hc
        apply hbefore
        rw [List.mem_filter]
        exact ⟨hmem (hne hsecond) hc, by simpa using hne hsecond⟩

theorem Fragment.OccursBefore.ne {x : Fragment} {first second : String}
    (h : x.OccursBefore first second) : first ≠ second := by
  rintro rfl
  obtain ⟨position, hposition, hbefore⟩ := h
  exact List.lt_irrefl position (hbefore position hposition)

namespace Fragment.Lists

variable {x : Fragment} {texts : List String} (h : x.Lists texts)
include h

theorem mem_iff {text : String} : text ∈ texts ↔ ∃ position, x.LiteralAt position text := by
  obtain ⟨found, rfl, -, hfound⟩ := h
  simp only [List.mem_map, Prod.exists, exists_eq_right, hfound]

theorem pairwise_occursBefore : texts.eraseDups.Pairwise x.OccursBefore := by
  obtain ⟨found, rfl, hsorted, hfound⟩ := h
  apply (pairwise_eraseDups hsorted).imp
  rintro first second ⟨position, hposition, hbefore⟩
  refine ⟨position, (hfound position first).mp hposition, ?_⟩
  intro later hlater
  exact hbefore later ((hfound later second).mpr hlater)

end Fragment.Lists

end Backend
