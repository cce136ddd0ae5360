import Backend.Proofs.Balance
import Backend.Proofs.Preservation
import Mathlib.Data.List.Nodup

/-! # The symbols of a listing

Storage, texts and labels define symbols. In the listing of a program no symbol is defined
twice, and the symbols of literals and jump targets are numbered without a gap.
-/

namespace Backend

/-- The symbol that a line defines. -/
@[simp]
def Line.symbol? : Line → Option String
  | .comm name .. | .string name _ | .label name => some name
  | .segment _ | .text | .global _ | .inst _ => none

namespace Code

/-- The symbols that code defines, in order. -/
def symbols (code : Code) : List String := code.filterMap Line.symbol?

@[simp]
theorem symbols_nil : symbols [] = [] := rfl

@[simp]
theorem symbols_append (a b : Code) : symbols (a ++ b) = symbols a ++ symbols b :=
  List.filterMap_append

@[simp]
theorem symbols_cons (line : Line) (rest : Code) :
    symbols (line :: rest) = line.symbol?.toList ++ symbols rest := by
  cases line <;> rfl

/-- What stands in the text section defines labels only. -/
theorem Regular.symbols_eq {returns : Prop} {c : Code} (h : Regular returns c) :
    symbols c = labels c := by
  induction h with
  | nil => rfl
  | @line line _ hline _ ih =>
      cases line with
      | label name => simp [ih]
      | inst i => simp [ih]
      | segment _ | text | global _ | comm _ _ _ | string _ _ => cases hline
  | library symbol _ ih | call symbol _ ih | epilogue _ _ ih => exact ih

end Code

namespace Label

theorem literal_injective : Function.Injective literal := numbered_injective ".S"

theorem literal_ne_of_head {name : String} (h : name.toList.head? ≠ some '.') (i : Nat) :
    literal i ≠ name := by
  rintro rfl
  simp [literal] at h

theorem take_toList_jump (i : Nat) : (jump i).toList.take 2 = ['.', 'L'] := by
  simp [jump]

theorem take_toList_literal (i : Nat) : (literal i).toList.take 2 = ['.', 'S'] := by
  simp [literal]

theorem literal_ne_jump (i j : Nat) : literal i ≠ jump j := by
  intro h
  have htags := take_toList_literal i
  rw [h, take_toList_jump] at htags
  exact absurd htags (by decide)

end Label

namespace FormatString

theorem jump_not_mem (i : Nat) : Label.jump i ∉ Code.symbols code := by
  have htags : ∀ name ∈ Code.symbols code, name.toList.take 2 ≠ ['.', 'L'] := by decide
  exact fun h => htags _ h (Label.take_toList_jump i)

theorem literal_not_mem (i : Nat) : Label.literal i ∉ Code.symbols code := by
  have htags : ∀ name ∈ Code.symbols code, name.toList.take 2 ≠ ['.', 'S'] := by decide
  exact fun h => htags _ h (Label.take_toList_literal i)

end FormatString

namespace Code

theorem Closed.label_mem {h : Int} {c : Code} (hc : Closed h c) {line : Line} (hline : line ∈ c)
    {target : String} (htarget : line.target? = some target) : .label target ∈ c := by
  obtain ⟨i, hi⟩ := List.getElem?_of_mem hline
  obtain ⟨j, hj, -⟩ := hc.exists_label hi htarget
  exact List.mem_of_getElem? hj

end Code

namespace Func

variable {cx : CodeEnv} {f : Func} {n n' : Nat} {code : Code}

theorem symbols_code (h : f.code cx n = .ok code n') : Code.symbols code = Code.labels code := by
  obtain ⟨d, body, -, hbody, rfl⟩ := code_eq_ok h
  have hsymbols := (Clause.balanced_code hbody).regular.symbols_eq
  have hprologue : Code.symbols f.prologue = Code.labels f.prologue := by
    unfold prologue
    split <;> rfl
  simp [hsymbols, hprologue, Snippet.epilogue]

/-- Jumps stay in the code of their function. -/
theorem jumps_code (h : f.code cx n = .ok code n') {line : Line} (hline : line ∈ code)
    {target : String} (htarget : line.target? = some target) : .label target ∈ code := by
  obtain ⟨d, body, -, hbody, rfl⟩ := code_eq_ok h
  have hprologue : ∀ line ∈ [.label d.name] ++ f.prologue, line.target? = none := by
    unfold prologue
    split <;> simp
  have hepilogue : ∀ line ∈ Snippet.epilogue, line.target? = none := by simp [Snippet.epilogue]
  rcases List.mem_append.mp hline with hline | hline
  · rcases List.mem_append.mp hline with hline | hline
    · rw [hprologue line hline] at htarget
      cases htarget
    · have hlabel := ((Clause.balanced_code hbody).closed 0).label_mem hline htarget
      exact List.mem_append_left _ (List.mem_append_right _ hlabel)
  · rw [hepilogue line hline] at htarget
    cases htarget

/-- The functions of a program have their code one behind the other. -/
theorem codeAll_eq_ok {fs : List Func} (h : codeAll cx fs n = .ok code n') :
    ∃ codes, code = codes.flatten ∧
      List.Forall₂ (fun f own => ∃ k k', f.code cx k = .ok own k') fs codes := by
  induction fs generalizing n code with
  | nil =>
      obtain ⟨rfl, -⟩ := Emit.pure_eq_ok_iff.mp h
      exact ⟨[], rfl, .nil⟩
  | cons f rest ih =>
      simp only [codeAll, Emit.bind_eq_ok_iff, Emit.pure_eq_ok_iff] at h
      obtain ⟨first, k, hfirst, others, _, hothers, rfl, rfl⟩ := h
      obtain ⟨codes, rfl, hcodes⟩ := ih hothers
      exact ⟨first :: codes, rfl, .cons ⟨n, k, hfirst⟩ hcodes⟩

/-- Functions define their names and the jump targets that are taken meanwhile. -/
theorem symbols_codeAll {fs : List Func} (h : codeAll cx fs n = .ok code n') :
    ∃ targets, Code.Numbered n n' targets ∧ (Code.symbols code).Perm
      ((fs.map Item.func).filterMap (Item.name? cx.decls) ++ Code.labels targets) := by
  induction fs generalizing n code with
  | nil =>
      obtain ⟨rfl, rfl⟩ := Emit.pure_eq_ok_iff.mp h
      exact ⟨[], .of_labels_eq_nil rfl, .nil⟩
  | cons f rest ih =>
      simp only [codeAll, Emit.bind_eq_ok_iff, Emit.pure_eq_ok_iff] at h
      obtain ⟨first, k, hfirst, others, _, hothers, rfl, rfl⟩ := h
      obtain ⟨d, -, hd, -, -⟩ := code_eq_ok hfirst
      obtain ⟨body, hbody, hlabels⟩ := labels_code hfirst hd
      obtain ⟨targets, htargets, hperm⟩ := ih hothers
      refine ⟨body ++ targets, hbody.append htargets, ?_⟩
      have hname : (Item.func f).name? cx.decls = some d.name := by
        simp [Item.name?, Item.id, hd]
      rw [Code.symbols_append, symbols_code hfirst, hlabels, List.map_cons,
        List.filterMap_cons_some hname, Code.labels_append, List.cons_append, List.cons_append]
      refine List.Perm.cons _ ((hperm.append_left _).trans ?_)
      rw [← List.append_assoc, ← List.append_assoc]
      exact List.perm_append_comm.append_right _

end Func

/-- Storage defines the names that functions do not define. -/
theorem symbols_globalStorage {decls : List Decl} {items : List Item} {n n' : Nat} {code : Code}
    (h : globalStorage decls items n = .ok code n') :
    n = n' ∧ (Code.symbols code ++ ((Program.functions { decls, items }).map Item.func).filterMap
      (Item.name? decls)).Perm (items.filterMap (Item.name? decls)) := by
  induction items generalizing n n' code with
  | nil =>
      obtain ⟨rfl, rfl⟩ := Emit.pure_eq_ok_iff.mp h
      exact ⟨rfl, .nil⟩
  | cons item rest ih =>
      cases item with
      | func f =>
          obtain ⟨rfl, hperm⟩ := ih h
          refine ⟨rfl, ?_⟩
          change (_ ++ List.filterMap _ (Item.func f :: _)).Perm _
          rw [List.filterMap_cons, List.filterMap_cons]
          cases hname : (Item.func f).name? decls with
          | none => exact hperm
          | some name => exact List.perm_middle.trans (hperm.cons name)
      | var id =>
          simp only [globalStorage, Emit.bind_eq_ok_iff, Emit.pure_eq_ok_iff,
            Emit.ofExcept_eq_ok_iff, Emit.checked_eq_ok_iff, declared_eq_ok_iff] at h
          obtain ⟨d, _, ⟨hd, rfl⟩, size, _, ⟨-, rfl⟩, others, _, hothers, rfl, rfl⟩ := h
          obtain ⟨rfl, hperm⟩ := ih hothers
          have hname : (Item.var id).name? decls = some d.name := by
            simp [Item.name?, Item.id, hd]
          rw [List.filterMap_cons_some hname]
          exact ⟨rfl, hperm.cons d.name⟩

namespace Pool

theorem symbols_code (pool : Pool) : Code.symbols pool.code = pool.map Prod.snd := by
  induction pool with
  | nil => rfl
  | cons entry rest ih => exact congrArg (entry.2 :: ·) ih

/-- Literals are numbered in order. -/
theorem labels_assign {texts : List String} {pool : Pool} {n n' : Nat}
    (h : assign texts n = .ok pool n') :
    n' = n + texts.length ∧ pool.map Prod.snd = (List.range' n texts.length).map Label.literal := by
  induction texts generalizing pool n with
  | nil =>
      obtain ⟨rfl, rfl⟩ := Emit.pure_eq_ok_iff.mp h
      exact ⟨rfl, rfl⟩
  | cons text rest ih =>
      simp only [assign, Emit.bind_eq_ok_iff, Emit.pure_eq_ok_iff,
        Emit.literalLabel_eq_ok_iff] at h
      obtain ⟨_, _, ⟨-, rfl, rfl⟩, others, _, hothers, rfl, rfl⟩ := h
      obtain ⟨rfl, hlabels⟩ := ih hothers
      exact ⟨by simp; omega, by simp [hlabels, List.range'_succ]⟩

end Pool

theorem inst_not_mem_globalStorage {decls : List Decl} {items : List Item} {n n' : Nat}
    {code : Code} (h : globalStorage decls items n = .ok code n') (i : Inst) : .inst i ∉ code := by
  induction items generalizing n n' code with
  | nil =>
      obtain ⟨rfl, -⟩ := Emit.pure_eq_ok_iff.mp h
      exact List.not_mem_nil
  | cons item rest ih =>
      cases item with
      | func _ => exact ih h
      | var id =>
          simp only [globalStorage, Emit.bind_eq_ok_iff, Emit.pure_eq_ok_iff] at h
          obtain ⟨d, _, -, size, _, -, others, _, hothers, rfl, -⟩ := h
          simp [ih hothers]

/-- The symbols that are not names of declarations: formats, literals and jump targets. -/
def generatorSymbols (n k : Nat) (targets : Code) : List String :=
  Code.symbols FormatString.code ++ ((List.range' n (k - n)).map Label.literal ++ targets.labels)

section GeneratorSymbols

variable {n k n' : Nat} {targets : Code} (htargets : Code.Numbered k n' targets)
include htargets

theorem head_of_mem_generatorSymbols {name : String} (h : name ∈ generatorSymbols n k targets) :
    name.toList.head? = some '.' := by
  simp only [generatorSymbols, List.mem_append, List.mem_map] at h
  rcases h with h | ⟨i, -, rfl⟩ | h
  · revert name
    decide
  · simp [Label.literal]
  · obtain ⟨i, -, -, rfl⟩ := htargets.named name h
    simp [Label.jump]

theorem jump_mem_generatorSymbols {i : Nat} :
    Label.jump i ∈ generatorSymbols n k targets ↔ k ≤ i ∧ i < n' := by
  simp only [generatorSymbols, List.mem_append, List.mem_map]
  constructor
  · rintro (h | ⟨j, -, h⟩ | h)
    · exact absurd h (FormatString.jump_not_mem i)
    · exact absurd h (Label.literal_ne_jump j i)
    · obtain ⟨j, hlow, hhigh, heq⟩ := htargets.named _ h
      rw [Label.jump_injective heq]
      exact ⟨hlow, hhigh⟩
  · rintro ⟨hlow, hhigh⟩
    exact .inr (.inr (htargets.all i hlow hhigh))

theorem literal_mem_generatorSymbols {i : Nat} :
    Label.literal i ∈ generatorSymbols n k targets ↔ n ≤ i ∧ i < k := by
  simp only [generatorSymbols, List.mem_append, List.mem_map, List.mem_range'_1]
  constructor
  · rintro (h | ⟨j, hj, h⟩ | h)
    · exact absurd h (FormatString.literal_not_mem i)
    · rw [← Label.literal_injective h]
      omega
    · obtain ⟨j, -, -, heq⟩ := htargets.named _ h
      exact absurd heq (Label.literal_ne_jump i j)
  · intro hi
    exact .inr (.inl ⟨i, by omega, rfl⟩)

theorem nodup_generatorSymbols : (generatorSymbols n k targets).Nodup := by
  have hliterals : ((List.range' n (k - n)).map Label.literal).Nodup :=
    List.Nodup.map Label.literal_injective List.nodup_range'
  simp only [generatorSymbols, List.nodup_append, List.mem_append, List.mem_map]
  refine ⟨by decide, ⟨hliterals, htargets.nodup, ?_⟩, ?_⟩
  · rintro _ ⟨i, -, rfl⟩ name hname
    obtain ⟨j, -, -, rfl⟩ := htargets.named name hname
    exact Label.literal_ne_jump i j
  · rintro name hname _ (⟨i, -, rfl⟩ | h) rfl
    · exact FormatString.literal_not_mem i hname
    · obtain ⟨j, -, -, rfl⟩ := htargets.named _ h
      exact FormatString.jump_not_mem j hname

end GeneratorSymbols

namespace Program

section Generate

variable {r : Program} {n n' : Nat}

theorem data_eq_ok {data : Code} {pool : Pool} (h : r.data n = .ok (data, pool) n') :
    ∃ storage, globalStorage r.decls r.items n = .ok storage n ∧
      Pool.assign r.literals.eraseDups n = .ok pool n' ∧
      data = FormatString.code ++ storage ++ pool.code := by
  simp only [Program.data, Program.pool, Emit.bind_eq_ok_iff, Emit.pure_eq_ok_iff,
    Prod.mk.injEq] at h
  obtain ⟨storage, k, hstorage, _, _, hpool, ⟨rfl, rfl⟩, rfl⟩ := h
  obtain ⟨rfl, -⟩ := symbols_globalStorage hstorage
  exact ⟨storage, hstorage, hpool, rfl⟩

theorem text_eq_ok {pool : Pool} {text : Code} (h : r.text pool n = .ok text n') :
    ∃ functions, Func.codeAll { decls := r.decls, pool } r.functions n = .ok functions n' ∧
      text = [.text, .global "main"] ++ functions ++
        [.segment ".note.GNU-stack,\"\",@progbits"] := by
  unfold Program.text at h
  split at h
  · simp only [Emit.bind_eq_ok_iff, Emit.pure_eq_ok_iff] at h
    obtain ⟨functions, _, hfunctions, rfl, rfl⟩ := h
    exact ⟨functions, hfunctions, rfl⟩
  · cases h

theorem generate_eq_ok (h : (r.generate n).result = .ok ()) :
    ∃ data pool k text, r.data n = .ok (data, pool) k ∧
      r.text pool k = .ok text (r.generate n).labels ∧ (r.generate n).written = data ++ text := by
  unfold generate at h ⊢
  split at h
  · cases h
  next data pool k hdata =>
    split at h
    · cases h
    next text n' htext =>
      simp only [hdata]
      exact ⟨data, pool, k, text, rfl, htext, rfl⟩

/-- Data sections define the names of globals and the numbered labels of literals. -/
theorem symbols_data {data : Code} {pool : Pool} (h : r.data n = .ok (data, pool) n') :
    n ≤ n' ∧ ∃ storage, globalStorage r.decls r.items n = .ok storage n ∧
      data.symbols = Code.symbols FormatString.code ++ storage.symbols ++
        (List.range' n (n' - n)).map Label.literal := by
  obtain ⟨storage, hstorage, hpool, rfl⟩ := data_eq_ok h
  obtain ⟨rfl, hlabels⟩ := Pool.labels_assign hpool
  refine ⟨Nat.le_add_right _ _, storage, hstorage, ?_⟩
  rw [Code.symbols_append, Code.symbols_append, Pool.symbols_code, hlabels, Nat.add_sub_cancel_left]

theorem inst_not_mem_data {data : Code} {pool : Pool} (h : r.data n = .ok (data, pool) n')
    (i : Inst) : .inst i ∉ data := by
  obtain ⟨storage, hstorage, -, rfl⟩ := data_eq_ok h
  simp [inst_not_mem_globalStorage hstorage, FormatString.code, Pool.code]

theorem symbols_text {pool : Pool} {text : Code} (h : r.text pool n = .ok text n') :
    ∃ targets, Code.Numbered n n' targets ∧ text.symbols.Perm
      ((r.functions.map Item.func).filterMap (Item.name? r.decls) ++ Code.labels targets) := by
  obtain ⟨functions, hfunctions, rfl⟩ := text_eq_ok h
  simpa using Func.symbols_codeAll hfunctions

/-- A listing defines the names of all items and the symbols of the generator. -/
theorem symbols_generate (h : (r.generate n).result = .ok ()) :
    ∃ k targets, n ≤ k ∧ Code.Numbered k (r.generate n).labels targets ∧
      (r.generate n).written.symbols.Perm
        (r.items.filterMap (Item.name? r.decls) ++ generatorSymbols n k targets) := by
  obtain ⟨data, pool, k, text, hdata, htext, hwritten⟩ := generate_eq_ok h
  obtain ⟨hle, storage, hstorage, hsymbols⟩ := symbols_data hdata
  obtain ⟨targets, htargets, hfunctions⟩ := symbols_text htext
  obtain ⟨-, hnames⟩ := symbols_globalStorage hstorage
  refine ⟨k, targets, hle, htargets, ?_⟩
  rw [hwritten, Code.symbols_append, hsymbols, generatorSymbols]
  -- The names of globals and those of functions stand apart, so the two orders are counted.
  rw [List.perm_iff_count] at hfunctions hnames ⊢
  intro name
  have hown := hfunctions name
  have hitems : (storage.symbols ++ (r.functions.map Item.func).filterMap
      (Item.name? r.decls)).count name = _ := hnames name
  simp only [List.count_append] at hown hitems ⊢
  omega

/-- What a run defines, whatever becomes of it: it takes no number below its first one. -/
theorem mem_symbols_generate {name : String} (h : name ∈ (r.generate n).written.symbols) :
    (∃ d ∈ r.decls, d.name = name) ∨ name ∈ Code.symbols FormatString.code ∨
      ∃ i, n ≤ i ∧ (name = Label.literal i ∨ name = Label.jump i) := by
  have hitem {item : Item} (hname : item.name? r.decls = some name) :
      ∃ d ∈ r.decls, d.name = name := by
    obtain ⟨d, hd, hname⟩ := Option.map_eq_some_iff.mp hname
    exact ⟨d, List.mem_of_getElem? hd, hname⟩
  unfold generate at h
  split at h
  · cases h
  next data pool k hdata =>
    obtain ⟨hle, storage, hstorage, hsymbols⟩ := symbols_data hdata
    have hmem : name ∈ data.symbols → (∃ d ∈ r.decls, d.name = name) ∨
        name ∈ Code.symbols FormatString.code ∨
          ∃ i, n ≤ i ∧ (name = Label.literal i ∨ name = Label.jump i) := by
      rw [hsymbols, List.mem_append, List.mem_append, List.mem_map]
      rintro ((h | h) | ⟨i, hi, rfl⟩)
      · exact .inr (.inl h)
      · have hname := (symbols_globalStorage hstorage).2.mem_iff.mp (List.mem_append_left _ h)
        obtain ⟨item, -, hname⟩ := List.mem_filterMap.mp hname
        exact .inl (hitem hname)
      · exact .inr (.inr ⟨i, (List.mem_range'_1.mp hi).1, .inl rfl⟩)
    split at h
    · exact hmem h
    next text n' htext =>
      rw [Code.symbols_append, List.mem_append] at h
      rcases h with h | h
      · exact hmem h
      obtain ⟨targets, htargets, hperm⟩ := symbols_text htext
      rcases List.mem_append.mp (hperm.mem_iff.mp h) with h | h
      · obtain ⟨item, -, hname⟩ := List.mem_filterMap.mp h
        exact .inl (hitem hname)
      · obtain ⟨i, hlow, -, rfl⟩ := htargets.named name h
        exact .inr (.inr ⟨i, by omega, .inr rfl⟩)

/-- All instructions stand in the code of functions, where jumps find their targets. -/
theorem exists_codes (h : (r.generate n).result = .ok ()) :
    ∃ pool before codes after, (r.generate n).written = before ++ codes.flatten ++ after ∧
      (∀ i, .inst i ∉ before ∧ .inst i ∉ after) ∧
      List.Forall₂ (fun f own => (∃ k k', Func.code { decls := r.decls, pool } f k = .ok own k') ∧
        ∀ line ∈ own, ∀ target, line.target? = some target → .label target ∈ own)
        r.functions codes := by
  obtain ⟨data, pool, k, text, hdata, htext, hwritten⟩ := generate_eq_ok h
  obtain ⟨functions, hfunctions, rfl⟩ := text_eq_ok htext
  obtain ⟨codes, rfl, hcodes⟩ := Func.codeAll_eq_ok hfunctions
  refine ⟨pool, data ++ [.text, .global "main"], codes,
    [.segment ".note.GNU-stack,\"\",@progbits"], by simp [hwritten], ?_, ?_⟩
  · intro i
    simp [inst_not_mem_data hdata i]
  · refine hcodes.imp ?_
    rintro f own ⟨k, k', hcode⟩
    exact ⟨⟨k, k', hcode⟩, fun line hline target => Func.jumps_code hcode hline⟩

section Numbers

variable (hdots : ∀ d ∈ r.decls, d.name.toList.head? ≠ some '.')
include hdots

theorem le_of_mem_symbols {i : Nat} (h : Label.jump i ∈ (r.generate n).written.symbols ∨
    Label.literal i ∈ (r.generate n).written.symbols) : n ≤ i := by
  rcases h with h | h
  · rcases mem_symbols_generate h with ⟨d, hd, heq⟩ | h | ⟨j, hj, heq | heq⟩
    · exact absurd heq.symm (Label.jump_ne_of_head (hdots d hd) i)
    · exact absurd h (FormatString.jump_not_mem i)
    · exact absurd heq.symm (Label.literal_ne_jump j i)
    · rwa [Label.jump_injective heq]
  · rcases mem_symbols_generate h with ⟨d, hd, heq⟩ | h | ⟨j, hj, heq | heq⟩
    · exact absurd heq.symm (Label.literal_ne_of_head (hdots d hd) i)
    · exact absurd h (FormatString.literal_not_mem i)
    · rwa [Label.literal_injective heq]
    · exact absurd heq (Label.literal_ne_jump i j)

theorem head_of_mem_names {name : String} (h : name ∈ r.items.filterMap (Item.name? r.decls)) :
    name.toList.head? ≠ some '.' := by
  obtain ⟨item, -, hname⟩ := List.mem_filterMap.mp h
  obtain ⟨d, hd, rfl⟩ := Option.map_eq_some_iff.mp hname
  exact hdots d (List.mem_of_getElem? hd)

variable (hok : (r.generate n).result = .ok ())
include hok

theorem nodup_symbols (hnames : r.NamesDistinct) : (r.generate n).written.symbols.Nodup := by
  obtain ⟨k, targets, -, htargets, hperm⟩ := symbols_generate hok
  rw [hperm.nodup_iff, List.nodup_append]
  refine ⟨?_, nodup_generatorSymbols htargets, ?_⟩
  · have hdeclared := hnames.filterMap fun name name' _ (h : name = _) h' => h.trans h'.symm
    rwa [List.filterMap_map] at hdeclared
  · rintro name hname _ hgenerated rfl
    exact head_of_mem_names hdots hname (head_of_mem_generatorSymbols htargets hgenerated)

/-- Literals have the first numbers that a run takes, and jump targets the others. -/
theorem exists_numbers : ∃ k, n ≤ k ∧ k ≤ (r.generate n).labels ∧
    (∀ i, Label.jump i ∈ (r.generate n).written.symbols ↔ k ≤ i ∧ i < (r.generate n).labels) ∧
    ∀ i, Label.literal i ∈ (r.generate n).written.symbols ↔ n ≤ i ∧ i < k := by
  obtain ⟨k, targets, hle, htargets, hperm⟩ := symbols_generate hok
  have hgenerated {name : String} (hdot : name.toList.head? = some '.') :
      name ∈ (r.generate n).written.symbols ↔ name ∈ generatorSymbols n k targets := by
    rw [hperm.mem_iff, List.mem_append, or_iff_right]
    exact fun hname => head_of_mem_names hdots hname hdot
  refine ⟨k, hle, htargets.le, fun i => ?_, fun i => ?_⟩
  · rw [hgenerated (by simp [Label.jump]), jump_mem_generatorSymbols htargets]
  · rw [hgenerated (by simp [Label.literal]), literal_mem_generatorSymbols htargets]

theorem count_symbols (hnames : r.NamesDistinct) (i : Nat) :
    (r.generate n).written.symbols.count (Label.jump i) +
      (r.generate n).written.symbols.count (Label.literal i) =
        if n ≤ i ∧ i < (r.generate n).labels then 1 else 0 := by
  have hnodup := nodup_symbols hdots hok hnames
  obtain ⟨k, hlow, hhigh, hjump, hliteral⟩ := exists_numbers hdots hok
  rw [hnodup.count, hnodup.count]
  simp only [hjump, hliteral]
  split <;> split <;> split <;> omega

end Numbers

end Generate

end Program

end Backend
