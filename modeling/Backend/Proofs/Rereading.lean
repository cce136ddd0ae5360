import Mathlib
import Backend.Asm.Line

/-! # Reading listings back

The text of a listing determines the listing. Rendered lines are taken apart again: the first
word of a line tells its form, the mnemonic tells how many operands follow and of which sort,
and operands are told apart by their first character and their parenthesis. All of this rests on
names that contain none of the characters that stand around names.
-/

namespace Backend

/-! ## Plain names -/

/-- The characters that a label or symbol must not contain: those that can end a name or start
something else. -/
def isReserved (c : Char) : Bool :=
  c.isWhitespace || [',', ':', '"', '(', ')', '%', '$'].contains c

def PlainName (name : String) : Prop := ∀ c ∈ name.toList, isReserved c = false

instance (name : String) : Decidable (PlainName name) :=
  List.decidableBAll (isReserved · = false) name.toList

theorem PlainName.not_mem {name : String} (h : PlainName name) {c : Char}
    (hc : isReserved c = true) : c ∉ name.toList := by
  intro hmem
  rw [h c hmem] at hc
  cases hc

/-- A label that is defined on a line is a single word. -/
theorem PlainName.blank_not_mem_label {name : String} (h : PlainName name) :
    ' ' ∉ name.toList ++ [':'] := by
  have hname : ' ' ∉ name.toList := h.not_mem (by decide)
  simpa using hname

/-- The labels and symbols in an operand. -/
def Operand.names : Operand → List String
  | .rip symbol => [symbol]
  | .reg _ | .imm _ | .mem .. => []

/-- The labels and symbols in an instruction. -/
def Inst.names : Inst → List String
  | .movq src dst | .movl src dst | .leaq src dst | .addq src dst | .addl src dst
  | .subq src dst | .subl src dst | .imulq src dst | .imull src dst | .andq src dst
  | .cmpl src dst => src.names ++ dst.names
  | .negl x | .idivl x | .pushq x | .popq x => x.names
  | .jmp name | .j _ name | .call name => [name]
  | .cltq | .cqto | .ret => []

/-- The labels and symbols on a line. -/
def Line.names : Line → List String
  | .global name | .comm name _ _ | .string name _ | .label name => [name]
  | .inst i => i.names
  | .segment _ | .text => []

/-- The section names on a line. -/
def Line.sections : Line → List String
  | .segment name => [name]
  | .text | .global _ | .comm .. | .string .. | .label _ | .inst _ => []

/-- A line whose labels and symbols are plain. The name of a section only has to stay on the
line. -/
structure Line.WellNamed (line : Line) : Prop where
  names : ∀ name ∈ line.names, PlainName name
  sections : ∀ name ∈ line.sections, '\n' ∉ name.toList

instance (line : Line) : Decidable line.WellNamed :=
  decidable_of_iff
    ((∀ name ∈ line.names, PlainName name) ∧ ∀ name ∈ line.sections, '\n' ∉ name.toList)
    ⟨fun h => ⟨h.1, h.2⟩, fun h => ⟨h.names, h.sections⟩⟩

/-! ## Numbers -/

namespace Rendered

theorem not_mem_toString_nat {c : Char} (hdigit : c.isDigit = false) (n : Nat) :
    c ∉ (toString n).toList := by
  intro hmem
  rw [Nat.toString_eq_ofList_toDigits, String.toList_ofList] at hmem
  rw [Nat.isDigit_of_mem_toDigits (by decide) (by decide) hmem] at hdigit
  cases hdigit

/-- A number is written with digits and a minus sign. -/
theorem not_mem_toString_int {c : Char} (hsign : c ≠ '-') (hdigit : c.isDigit = false) (n : Int) :
    c ∉ (toString n).toList := by
  rw [Int.toString_eq_repr, Int.repr_eq_if]
  split
  · exact not_mem_toString_nat hdigit _
  · rw [String.toList_append, List.mem_append, not_or]
    exact ⟨by simpa using hsign, not_mem_toString_nat hdigit _⟩

theorem toInt?_toString (n : Int) : (toString n).toInt? = some n := by
  rw [Int.toString_eq_repr, Int.toInt?_repr]

theorem toNat?_toString (n : Nat) : (toString n).toNat? = some n :=
  Nat.toNat?_repr n

/-! ## Taking text apart -/

/-- What stands before and behind the first occurrence of a character. -/
def cut (c : Char) : List Char → Option (List Char × List Char)
  | [] => none
  | d :: rest => if d = c then some ([], rest) else (cut c rest).map (Prod.map (List.cons d) id)

theorem cut_append {c : Char} {front : List Char} (h : c ∉ front) (back : List Char) :
    cut c (front ++ c :: back) = some (front, back) := by
  induction front with
  | nil => simp [cut]
  | cons d rest ih =>
      obtain ⟨hd, hrest⟩ := not_or.mp (mt List.mem_cons.mpr h)
      simp [cut, Ne.symm hd, ih hrest]

theorem cut_eq_none {c : Char} {text : List Char} (h : c ∉ text) : cut c text = none := by
  induction text with
  | nil => rfl
  | cons d rest ih =>
      obtain ⟨hd, hrest⟩ := not_or.mp (mt List.mem_cons.mpr h)
      simp [cut, Ne.symm hd, ih hrest]

/-- The texts that stand between commas, each comma followed by a blank. -/
def fields (text : List Char) : List (List Char) :=
  match text.splitOn ',' with
  | [] => []
  | first :: rest => first :: rest.map List.tail

theorem splitOn_intercalate_comma {first : List Char} {rest : List (List Char)}
    (hfirst : ',' ∉ first) (hrest : ∀ text ∈ rest, ',' ∉ text) :
    ([',', ' '].intercalate (first :: rest)).splitOn ',' = first :: rest.map (List.cons ' ') := by
  induction rest generalizing first with
  | nil => simp [List.splitOn_eq_singleton hfirst]
  | cons second rest ih =>
      obtain ⟨hsecond, hrest⟩ := List.forall_mem_cons.mp hrest
      have hmore : ',' ∉ ' ' :: second := by simpa using hsecond
      have hshift : [',', ' '].intercalate (first :: second :: rest) =
          first ++ ',' :: [',', ' '].intercalate ((' ' :: second) :: rest) := by
        cases rest with
        | nil => simp
        | cons third rest => simp
      rw [hshift, List.splitOn_append_cons_self_of_not_mem hfirst, ih hmore hrest, List.map_cons]

theorem fields_intercalate {texts : List String} (hne : texts ≠ [])
    (h : ∀ text ∈ texts, ',' ∉ text.toList) :
    fields (", ".intercalate texts).toList = texts.map String.toList := by
  cases texts with
  | nil => exact absurd rfl hne
  | cons first rest =>
      obtain ⟨hfirst, hrest⟩ := List.forall_mem_cons.mp h
      have hsplit := splitOn_intercalate_comma hfirst (List.forall_mem_map.mpr hrest)
      rw [fields, String.toList_intercalate]
      simp [hsplit]

theorem not_mem_intercalate {c : Char} (hc : c ∉ ", ".toList) {texts : List String}
    (h : ∀ text ∈ texts, c ∉ text.toList) : c ∉ (", ".intercalate texts).toList := by
  induction texts with
  | nil => simp
  | cons first rest ih =>
      obtain ⟨hfirst, hrest⟩ := List.forall_mem_cons.mp h
      cases rest with
      | nil => rwa [String.intercalate_singleton]
      | cons second rest =>
          rw [String.intercalate_cons_cons, String.toList_append, String.toList_append]
          simp only [List.mem_append, not_or]
          exact ⟨⟨hfirst, hc⟩, ih hrest⟩

end Rendered

open Rendered

/-! ## Operands -/

/-- The register that is written in the given way. -/
def Reg.find? (write : Reg → List Char) (text : List Char) : Option Reg :=
  [.rax, .rbx, .rcx, .rsi, .rdi, .rsp, .eax, .ecx, .edx, .esi].find? fun r => write r = text

namespace Operand

/-- How a register stands as the base of an address, behind the opening parenthesis. -/
def baseText (r : Reg) : List Char := '%' :: (r.name.toList ++ [')'])

/-- The operand without parentheses that is written in the given way. -/
def direct? : List Char → Option Operand
  | '%' :: name => (Reg.find? (·.name.toList) name).map .reg
  | '$' :: digits => (String.ofList digits).toInt?.map .imm
  | _ => none

/-- The operand that has the given texts before and behind its opening parenthesis. -/
def indirect? (front back : List Char) : Option Operand :=
  if back = "%rip)".toList then some (.rip (String.ofList front))
  else do return .mem (← (String.ofList front).toInt?) (← Reg.find? baseText back)

/-- The operand that is written in the given way. -/
def read? (text : List Char) : Option Operand :=
  match cut '(' text with
  | none => direct? text
  | some (front, back) => indirect? front back

theorem read?_render (o : Operand) (h : ∀ name ∈ o.names, PlainName name) :
    read? o.render.toList = some o := by
  cases o with
  | reg r => cases r <;> rfl
  | imm value =>
      have hcut : cut '(' ('$' :: (toString value).toList) = none := by
        apply cut_eq_none
        simp only [List.mem_cons, not_or]
        exact ⟨by decide, not_mem_toString_int (by decide) (by decide) value⟩
      rw [render, String.toList_append]
      change read? ('$' :: (toString value).toList) = _
      simp only [read?, hcut, direct?, String.ofList_toList, toInt?_toString, Option.map_some]
  | mem disp base =>
      have hfront : '(' ∉ (toString disp).toList :=
        not_mem_toString_int (by decide) (by decide) disp
      have htext : (render (.mem disp base)).toList =
          (toString disp).toList ++ '(' :: baseText base := by
        simp only [render, String.toList_append, List.append_assoc]
        rfl
      have hbase : baseText base ≠ "%rip)".toList ∧
          Reg.find? baseText (baseText base) = some base := by
        cases base <;> exact ⟨by decide, rfl⟩
      rw [htext, read?, cut_append hfront]
      simp only [indirect?, hbase, if_false, String.ofList_toList, toInt?_toString]
      rfl
  | rip symbol =>
      have hfront : '(' ∉ symbol.toList := (h symbol List.mem_cons_self).not_mem (by decide)
      have htext : (render (.rip symbol)).toList = symbol.toList ++ '(' :: "%rip)".toList := by
        rw [render, String.toList_append]
        rfl
      rw [htext, read?, cut_append hfront]
      simp only [indirect?, if_true, String.ofList_toList]

/-- Operands are written without what separates them. -/
theorem not_mem_render {c : Char} (hc : c = ' ' ∨ c = ',' ∨ c = '\n') (o : Operand)
    (h : ∀ name ∈ o.names, PlainName name) : c ∉ o.render.toList := by
  have hnumber (n : Int) : c ∉ (toString n).toList := by
    rcases hc with rfl | rfl | rfl <;> exact not_mem_toString_int (by decide) (by decide) n
  cases o with
  | reg r => rcases hc with rfl | rfl | rfl <;> cases r <;> decide
  | imm value =>
      rw [render, String.toList_append, List.mem_append, not_or]
      exact ⟨by rcases hc with rfl | rfl | rfl <;> decide, hnumber value⟩
  | mem disp base =>
      have hback : c ∉ "(%".toList ++ base.name.toList ++ ")".toList := by
        rcases hc with rfl | rfl | rfl <;> cases base <;> decide
      simp only [render, String.toList_append, List.append_assoc, List.mem_append, not_or]
        at hback ⊢
      exact ⟨hnumber disp, hback⟩
  | rip symbol =>
      have hname : c ∉ symbol.toList :=
        (h symbol List.mem_cons_self).not_mem (by rcases hc with rfl | rfl | rfl <;> decide)
      rw [render, String.toList_append, List.mem_append, not_or]
      exact ⟨hname, by rcases hc with rfl | rfl | rfl <;> decide⟩

end Operand

/-! ## Instructions -/

/-- An instruction up to its operands. -/
inductive Opcode where
  | plain (inst : Inst)
  | transfer (make : String → Inst)
  | unary (make : Operand → Inst)
  | binary (make : Operand → Operand → Inst)

namespace Opcode

def all : List (String × Opcode) :=
  [("movq", .binary .movq), ("movl", .binary .movl), ("leaq", .binary .leaq),
    ("addq", .binary .addq), ("addl", .binary .addl), ("subq", .binary .subq),
    ("subl", .binary .subl), ("imulq", .binary .imulq), ("imull", .binary .imull),
    ("andq", .binary .andq), ("cmpl", .binary .cmpl), ("negl", .unary .negl),
    ("idivl", .unary .idivl), ("pushq", .unary .pushq), ("popq", .unary .popq),
    ("jmp", .transfer .jmp), ("je", .transfer (.j .e)), ("jne", .transfer (.j .ne)),
    ("jl", .transfer (.j .l)), ("jle", .transfer (.j .le)), ("jg", .transfer (.j .g)),
    ("jge", .transfer (.j .ge)), ("call", .transfer .call), ("cltq", .plain .cltq),
    ("cqto", .plain .cqto), ("ret", .plain .ret)]

/-- The instruction with operands that are written in the given way. -/
def assemble? : Opcode → List (List Char) → Option Inst
  | .plain i, [] => some i
  | .transfer make, [name] => some (make (String.ofList name))
  | .unary make, [x] => (Operand.read? x).map make
  | .binary make, [x, y] => do return make (← Operand.read? x) (← Operand.read? y)
  | _, _ => none

theorem not_mem_mnemonic {c : Char} (hc : c = ' ' ∨ c = '\n') {mnemonic : String} {o : Opcode}
    (h : all.lookup mnemonic = some o) : c ∉ mnemonic.toList := by
  have hall : ∀ entry ∈ all, ' ' ∉ entry.1.toList ∧ '\n' ∉ entry.1.toList := by decide
  obtain ⟨before, after, heq, -⟩ := List.lookup_eq_some_iff.mp h
  have hentry := hall (mnemonic, o) (by simp [heq])
  rcases hc with rfl | rfl
  · exact hentry.1
  · exact hentry.2

end Opcode

namespace Inst

def read? (text : List Char) : Option Inst :=
  match cut ' ' text with
  | none => do (← Opcode.all.lookup (String.ofList text)).assemble? []
  | some (word, rest) => do (← Opcode.all.lookup (String.ofList word)).assemble? (fields rest)

variable (i : Inst) (h : ∀ name ∈ i.names, PlainName name)
include h

/-- The mnemonic tells the opcode, and the opcode makes the instruction out of its operands. -/
theorem exists_opcode : ∃ o, Opcode.all.lookup i.mnemonic = some o ∧
    o.assemble? (i.operands.map String.toList) = some i := by
  cases i with
  | movq a b | movl a b | leaq a b | addq a b | addl a b | subq a b | subl a b | imulq a b
  | imull a b | andq a b | cmpl a b =>
      obtain ⟨ha, hb⟩ := List.forall_mem_append.mp h
      exact ⟨_, rfl, by simp [operands, Opcode.assemble?, a.read?_render ha, b.read?_render hb]⟩
  | negl x | idivl x | pushq x | popq x =>
      exact ⟨_, rfl, by simp [operands, Opcode.assemble?, x.read?_render h]⟩
  | jmp name | call name => exact ⟨_, rfl, by simp [operands, Opcode.assemble?]⟩
  | j cond name =>
      cases cond <;> exact ⟨_, rfl, by simp [operands, Opcode.assemble?]⟩
  | cltq | cqto | ret => exact ⟨_, rfl, rfl⟩

theorem not_mem_operands {c : Char} (hc : c = ' ' ∨ c = ',' ∨ c = '\n') :
    ∀ text ∈ i.operands, c ∉ text.toList := by
  cases i with
  | movq a b | movl a b | leaq a b | addq a b | addl a b | subq a b | subl a b | imulq a b
  | imull a b | andq a b | cmpl a b =>
      obtain ⟨ha, hb⟩ := List.forall_mem_append.mp h
      simpa [operands] using ⟨a.not_mem_render hc ha, b.not_mem_render hc hb⟩
  | negl x | idivl x | pushq x | popq x => simpa [operands] using x.not_mem_render hc h
  | jmp name | j _ name | call name =>
      have hreserved : isReserved c = true := by rcases hc with rfl | rfl | rfl <;> decide
      simpa [operands] using (h name List.mem_cons_self).not_mem hreserved
  | cltq | cqto | ret => simp [operands]

omit h in
theorem render_cons {first : String} {rest : List String} (hops : i.operands = first :: rest) :
    i.render.toList = i.mnemonic.toList ++ ' ' :: (", ".intercalate i.operands).toList := by
  rw [render, hops]
  simp only [String.toList_append, List.append_assoc]
  rfl

theorem read?_render : read? i.render.toList = some i := by
  obtain ⟨o, hmnemonic, happly⟩ := i.exists_opcode h
  have hblank : ' ' ∉ i.mnemonic.toList := Opcode.not_mem_mnemonic (.inl rfl) hmnemonic
  cases hops : i.operands with
  | nil =>
      have htext : i.render = i.mnemonic := by rw [render, hops]
      rw [hops] at happly
      rw [htext, read?, cut_eq_none hblank]
      simpa [hmnemonic] using happly
  | cons first rest =>
      have hne : i.operands ≠ [] := by simp [hops]
      have hfields := fields_intercalate hne (i.not_mem_operands h (.inr (.inl rfl)))
      rw [i.render_cons hops, read?, cut_append hblank]
      simp only [hfields, String.ofList_toList, hmnemonic]
      exact happly

theorem newline_not_mem_render : '\n' ∉ i.render.toList := by
  obtain ⟨o, hmnemonic, -⟩ := i.exists_opcode h
  have hword : '\n' ∉ i.mnemonic.toList := Opcode.not_mem_mnemonic (.inr rfl) hmnemonic
  cases hops : i.operands with
  | nil => rwa [render, hops]
  | cons first rest =>
      have hrest := not_mem_intercalate (by decide) (i.not_mem_operands h (.inr (.inr rfl)))
      rw [i.render_cons hops, List.mem_append, List.mem_cons, not_or, not_or]
      exact ⟨hword, by decide, hrest⟩

end Inst

/-! ## String directives -/

namespace StringDirective

theorem toList_escape (text : String) : (escape text).toList = text.toList.flatMap escapeChar := by
  simp [escape]

/-- The text with its escapes undone. -/
def unescape : List Char → List Char
  | '\\' :: '\\' :: rest => '\\' :: unescape rest
  | '\\' :: '"' :: rest => '"' :: unescape rest
  | '\\' :: 'n' :: rest => '\n' :: unescape rest
  | '\\' :: 't' :: rest => '\t' :: unescape rest
  | c :: rest => c :: unescape rest
  | [] => []

theorem unescape_escapeChar (c : Char) (rest : List Char) :
    unescape (escapeChar c ++ rest) = c :: unescape rest := by
  unfold escapeChar
  split
  next => rfl
  next => rfl
  next => rfl
  next => rfl
  next hbackslash _ _ _ =>
    rw [List.singleton_append, unescape]
    all_goals exact fun _ h => absurd h hbackslash

theorem unescape_escape (text : String) : unescape (escape text).toList = text.toList := by
  rw [toList_escape]
  induction text.toList with
  | nil => rfl
  | cons c rest ih => rw [List.flatMap_cons, unescape_escapeChar, ih]

theorem newline_not_mem_escape (text : String) : '\n' ∉ (escape text).toList := by
  rw [toList_escape, List.mem_flatMap]
  rintro ⟨c, -, hc⟩
  unfold escapeChar at hc
  split at hc
  next => exact absurd hc (by decide)
  next => exact absurd hc (by decide)
  next => exact absurd hc (by decide)
  next => exact absurd hc (by decide)
  next _ _ hnewline _ => exact hnewline (List.mem_singleton.mp hc).symm

/-- The number of backslashes at the end of a text. An odd number of them escapes what comes
next. -/
def trailingBackslashes (text : List Char) : Nat :=
  (text.reverse.takeWhile (· = '\\')).length

theorem trailingBackslashes_append_backslash (text : List Char) :
    trailingBackslashes (text ++ ['\\']) = trailingBackslashes text + 1 := by
  simp [trailingBackslashes]

theorem trailingBackslashes_append {c : Char} (hc : c ≠ '\\') (text : List Char) :
    trailingBackslashes (text ++ [c]) = 0 := by
  simp [trailingBackslashes, hc]

theorem even_trailingBackslashes {text : List Char} (h : trailingBackslashes text % 2 = 0)
    (c : Char) : trailingBackslashes (text ++ escapeChar c) % 2 = 0 := by
  unfold escapeChar
  split
  next =>
    rw [List.append_cons, trailingBackslashes_append_backslash,
      trailingBackslashes_append_backslash]
    omega
  next => rw [List.append_cons, trailingBackslashes_append (by decide)]
  next => rw [List.append_cons, trailingBackslashes_append (by decide)]
  next => rw [List.append_cons, trailingBackslashes_append (by decide)]
  next hbackslash _ _ _ => rw [trailingBackslashes_append hbackslash]

/-- The only quote that escaping a character writes has one backslash in front of it. -/
theorem eq_backslash_of_escapeChar {c : Char} {before after : List Char}
    (h : escapeChar c = before ++ '"' :: after) : before = ['\\'] := by
  unfold escapeChar at h
  split at h
  next => simp [List.cons_eq_append_iff] at h
  next =>
    simp only [List.cons_eq_append_iff, List.nil_eq_append_iff] at h
    simp_all
  next => simp [List.cons_eq_append_iff] at h
  next => simp [List.cons_eq_append_iff] at h
  next _ hquote _ _ =>
    obtain ⟨-, hc, -⟩ : before = [] ∧ '"' = c ∧ after = [] := by
      simpa [List.cons_eq_append_iff] using h
    exact absurd hc.symm hquote

/-- Escaped texts end in an even number of backslashes, so that a quote behind them is not
escaped, and every quote in them has an odd number in front of it. -/
theorem backslashes_of_escape (text : List Char) :
    trailingBackslashes (text.flatMap escapeChar) % 2 = 0 ∧
      ∀ before after, text.flatMap escapeChar = before ++ '"' :: after →
        trailingBackslashes before % 2 = 1 := by
  induction text using List.reverseRecOn with
  | nil => exact ⟨rfl, by simp⟩
  | append_singleton text c ih =>
      obtain ⟨heven, hodd⟩ := ih
      rw [List.flatMap_append, List.flatMap_singleton]
      refine ⟨even_trailingBackslashes heven c, ?_⟩
      intro before after h
      -- The quote stands in what was there, or in what is written for the last character.
      rcases List.append_eq_append_iff.mp h with ⟨middle, hbefore, hc⟩ | ⟨middle, htext, hc⟩
      · rw [hbefore, eq_backslash_of_escapeChar hc, trailingBackslashes_append_backslash]
        omega
      · cases middle with
        | nil =>
            have hquote : escapeChar c = [] ++ '"' :: after := hc.symm
            cases eq_backslash_of_escapeChar hquote
        | cons d rest =>
            obtain ⟨rfl, -⟩ := List.cons.inj hc
            exact hodd before rest htext

end StringDirective

/-! ## Lines -/

namespace Line

open StringDirective (escape unescape)

/-- The line without a blank that is written in the given way. -/
def word? (text : List Char) : Option Line :=
  if text.getLast? = some ':' then some (.label (String.ofList text.dropLast))
  else if text = ".text".toList then some .text
  else none

/-- The directive with the given text behind its first word. -/
def directive? (word rest : List Char) : Option Line :=
  if word = ".section".toList then some (.segment (String.ofList rest))
  else if word = ".global".toList then some (.global (String.ofList rest))
  else
    match fields rest with
    | [name, size, align] => do
        return .comm (String.ofList name) (← (String.ofList size).toNat?)
          (← (String.ofList align).toNat?)
    | _ => none

/-- The line that is written in the given way: an instruction is indented, and the first word of
any other line says what it is. -/
def read? (text : List Char) : Option Line :=
  match cut ' ' text with
  | none => word? text
  | some (word, rest) =>
      if word = [] then (Inst.read? (rest.drop 3)).map .inst
      else if word.getLast? = some ':' then do
        let (_, quoted) ← cut '"' rest
        return .string (String.ofList word.dropLast) (String.ofList (unescape quoted.dropLast))
      else directive? word rest

theorem read?_directive {word : List Char} (hblank : ' ' ∉ word) (hne : word ≠ [])
    (hcolon : word.getLast? ≠ some ':') (rest : List Char) :
    read? (word ++ ' ' :: rest) = directive? word rest := by
  rw [read?, cut_append hblank]
  simp only [hne, hcolon, if_false]

theorem read?_render (line : Line) (h : line.WellNamed) : read? line.render.toList = some line := by
  cases line with
  | segment name =>
      have htext : (render (.segment name)).toList = ".section".toList ++ ' ' :: name.toList := by
        simp [render]
      rw [htext, read?_directive (by decide) (by decide) (by decide), directive?, if_pos rfl,
        String.ofList_toList]
  | text => rfl
  | global name =>
      have htext : (render (.global name)).toList = ".global".toList ++ ' ' :: name.toList := by
        simp [render]
      rw [htext, read?_directive (by decide) (by decide) (by decide), directive?,
        if_neg (by decide), if_pos rfl, String.ofList_toList]
  | comm name size align =>
      have htext : (render (.comm name size align)).toList = ".comm".toList ++
          ' ' :: (", ".intercalate [name, toString size, toString align]).toList := by
        simp [render]
      have hplain : ∀ text ∈ [name, toString size, toString align], ',' ∉ text.toList := by
        have hname : ',' ∉ name.toList := (h.names name List.mem_cons_self).not_mem (by decide)
        have hnumber (n : Nat) : ',' ∉ (toString n).toList := not_mem_toString_nat (by decide) n
        simp only [List.forall_mem_cons]
        exact ⟨hname, hnumber size, hnumber align, by simp⟩
      have hfields := fields_intercalate (by simp) hplain
      rw [htext, read?_directive (by decide) (by decide) (by decide), directive?,
        if_neg (by decide), if_neg (by decide), hfields]
      simp only [List.map_cons, List.map_nil, String.ofList_toList, toNat?_toString]
      rfl
  | string name contents =>
      have hword := (h.names name List.mem_cons_self).blank_not_mem_label
      have htext : (render (.string name contents)).toList = (name.toList ++ [':']) ++
          ' ' :: (".string ".toList ++ '"' :: ((escape contents).toList ++ ['"'])) := by
        simp [render]
      have hquoted : cut '"' (".string ".toList ++ '"' :: ((escape contents).toList ++ ['"'])) =
          some (".string ".toList, (escape contents).toList ++ ['"']) :=
        cut_append (by decide) _
      rw [htext, read?, cut_append hword]
      simp only [hquoted]
      simp [StringDirective.unescape_escape]
  | label name =>
      have hword := (h.names name List.mem_cons_self).blank_not_mem_label
      have htext : (render (.label name)).toList = name.toList ++ [':'] := by simp [render]
      rw [htext, read?, cut_eq_none hword]
      simp [word?]
  | inst i =>
      have htext : (render (.inst i)).toList = [] ++ ' ' :: ("   ".toList ++ i.render.toList) := by
        simp [render]
      rw [htext, read?, cut_append (by decide)]
      simp [i.read?_render h.names]

theorem newline_not_mem_render (line : Line) (h : line.WellNamed) : '\n' ∉ line.render.toList := by
  have hname {name : String} (hmem : name ∈ line.names) : '\n' ∉ name.toList :=
    (h.names name hmem).not_mem (by decide)
  have hnumber (n : Nat) : '\n' ∉ (toString n).toList := not_mem_toString_nat (by decide) n
  cases line with
  | segment name =>
      simp only [render, String.toList_append, List.mem_append, not_or]
      exact ⟨by decide, h.sections name List.mem_cons_self⟩
  | text => decide
  | global name =>
      simp only [render, String.toList_append, List.mem_append, not_or]
      exact ⟨by decide, hname List.mem_cons_self⟩
  | comm name size align =>
      simp only [render, String.toList_append, List.mem_append, not_or]
      exact ⟨⟨⟨⟨⟨by decide, hname List.mem_cons_self⟩, by decide⟩, hnumber size⟩, by decide⟩,
        hnumber align⟩
  | string name contents =>
      simp only [render, String.toList_append, List.mem_append, not_or]
      exact ⟨⟨⟨hname List.mem_cons_self, by decide⟩,
        StringDirective.newline_not_mem_escape contents⟩, by decide⟩
  | label name =>
      simp only [render, String.toList_append, List.mem_append, not_or]
      exact ⟨hname List.mem_cons_self, by decide⟩
  | inst i =>
      simp only [render, String.toList_append, List.mem_append, not_or]
      exact ⟨by decide, i.newline_not_mem_render h.names⟩

end Line

/-! ## Listings -/

namespace Code

theorem toList_render_cons (line : Line) (rest : Code) :
    (render (line :: rest)).toList = line.render.toList ++ '\n' :: (render rest).toList := by
  simp [render]

theorem splitOn_render {code : Code} (h : ∀ line ∈ code, line.WellNamed) :
    code.render.toList.splitOn '\n' = code.map (·.render.toList) ++ [[]] := by
  induction code with
  | nil => rfl
  | cons line rest ih =>
      obtain ⟨hline, hrest⟩ := List.forall_mem_cons.mp h
      rw [toList_render_cons,
        List.splitOn_append_cons_self_of_not_mem (line.newline_not_mem_render hline), ih hrest]
      rfl

/-- Reading all lines of a rendered listing gives the listing. -/
theorem map_read?_splitOn {code : Code} (h : ∀ line ∈ code, line.WellNamed) :
    (code.render.toList.splitOn '\n').dropLast.map Line.read? = code.map some := by
  rw [splitOn_render h, List.dropLast_concat, List.map_map]
  apply List.map_congr_left
  intro line hline
  exact line.read?_render (h line hline)

/-- Rendering loses nothing. Every line of a listing is one physical line of its text, each of
them ended, and no other listing has the same text. What stands between the quotes of a string
directive has no line break and no quote but escaped ones, leaves the closing quote unescaped,
and gives the string back when its escapes are undone. -/
theorem rendering_loses_nothing {code : Code} (hnames : ∀ line ∈ code, line.WellNamed) :
    code.render.toList.splitOn '\n' = code.map (·.render.toList) ++ [[]] ∧
    (∀ other : Code, (∀ line ∈ other, line.WellNamed) → other.render = code.render → other = code) ∧
    ∀ name contents : String, ∃ quoted : List Char,
      (Line.string name contents).render.toList =
        name.toList ++ ": .string \"".toList ++ quoted ++ ['"'] ∧
      '\n' ∉ quoted ∧
      (∀ before after, quoted = before ++ '"' :: after →
        StringDirective.trailingBackslashes before % 2 = 1) ∧
      StringDirective.trailingBackslashes quoted % 2 = 0 ∧
      String.ofList (StringDirective.unescape quoted) = contents := by
  refine ⟨splitOn_render hnames, ?_, ?_⟩
  · intro other hother htext
    have hlines : other.map some = code.map some := by
      rw [← map_read?_splitOn hother, htext, map_read?_splitOn hnames]
    exact List.map_injective_iff.mpr (Option.some_injective Line) hlines
  · intro name contents
    obtain ⟨heven, hodd⟩ := StringDirective.backslashes_of_escape contents.toList
    rw [← StringDirective.toList_escape] at heven hodd
    refine ⟨(StringDirective.escape contents).toList, ?_,
      StringDirective.newline_not_mem_escape contents, hodd, heven, ?_⟩
    · simp [Line.render]
    · rw [StringDirective.unescape_escape, String.ofList_toList]

end Code

namespace Sample

/-- Lines of all forms, with quotes next to backslashes, an empty label and negative numbers. -/
def code : Code :=
  [.segment ".note.GNU-stack,\"\",@progbits", .text, .global "main", .comm "a" 80 32,
    .string ".S0" "\\\"\n", .label "", .inst (.movq (.mem (-8) .rbx) (.rip "a")),
    .inst (.j .ge ".L4"), .inst .ret]

/-- The listing is the only one with its text, which has one line for each of its lines. -/
theorem only_listing_with_text :
    (∀ line ∈ code, line.WellNamed) ∧
      (code.render.toList.splitOn '\n').length = code.length + 1 ∧
      ∀ other : Code, (∀ line ∈ other, line.WellNamed) → other.render = code.render →
        other = code := by
  have hnames : ∀ line ∈ code, line.WellNamed := by decide
  obtain ⟨hsplit, honly, -⟩ := Code.rendering_loses_nothing hnames
  exact ⟨hnames, by simp [hsplit], honly⟩

end Sample

end Backend
