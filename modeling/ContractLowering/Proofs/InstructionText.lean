import ContractLowering.Instr
import ContractLowering.Proofs.JsonScanning
import Mathlib.Data.List.Basic

/-!
The text of an instruction tells the instruction, unless an operand is written as it stands. A
mnemonic and a register end where a blank follows or nothing, since there is no blank in them. A
quoted text may hold anything, and ends at the first quotation mark that is not escaped. A reader for
each of the three finds it in front of whatever is written behind it.
-/

namespace ContractLowering

/-- A word may end here: a blank follows, or nothing. -/
def WordEnd (rest : List Char) : Prop := ∀ c, rest.head? = some c → c = ' '

section Word

variable {p : Char → Bool} {word rest : List Char}

theorem WordEnd.takeWhile (h : WordEnd rest) (blank : p ' ' = false) : rest.takeWhile p = [] := by
  cases rest with
  | nil => rfl
  | cons c cs => rw [h c rfl, List.takeWhile_cons_of_neg (by simp [blank])]

theorem WordEnd.takeWhile_append (h : WordEnd rest) (blank : p ' ' = false)
    (inside : ∀ c ∈ word, p c = true) : (word ++ rest).takeWhile p = word := by
  rw [List.takeWhile_append_of_pos inside, h.takeWhile blank, List.append_nil]

theorem WordEnd.dropWhile_append (h : WordEnd rest) (blank : p ' ' = false)
    (inside : ∀ c ∈ word, p c = true) : (word ++ rest).dropWhile p = rest := by
  have whole := List.takeWhile_append_dropWhile (p := p) (l := word ++ rest)
  rw [h.takeWhile_append blank inside] at whole
  exact List.append_cancel_left whole

end Word

namespace Opcode

def all : List Opcode :=
  [load, copy, push, pop, not, add, sub, mul, div, mod, equal, lt, lte, gt, gte, extCall, ctx,
    switch, throw, ret]

/-- Reads a mnemonic, which goes on until a blank. -/
def read? (cs : List Char) : Option (Opcode × List Char) :=
  (all.find? fun opcode => opcode.mnemonic.toList = cs.takeWhile (· ≠ ' ')).map
    fun opcode => (opcode, cs.dropWhile (· ≠ ' '))

theorem find_mnemonic (opcode : Opcode) :
    (all.find? fun other => other.mnemonic.toList = opcode.mnemonic.toList) = some opcode := by
  cases opcode <;> decide

theorem blank_not_mem_mnemonic (opcode : Opcode) : ' ' ∉ opcode.mnemonic.toList := by
  cases opcode <;> decide

theorem read?_mnemonic (opcode : Opcode) {rest : List Char} (h : WordEnd rest) :
    read? (opcode.mnemonic.toList ++ rest) = some (opcode, rest) := by
  have inside : ∀ c ∈ opcode.mnemonic.toList, decide (c ≠ ' ') = true := by
    intro c member
    exact decide_eq_true (ne_of_mem_of_not_mem member opcode.blank_not_mem_mnemonic)
  rw [read?, h.takeWhile_append rfl inside, h.dropWhile_append rfl inside, find_mnemonic,
    Option.map_some]

end Opcode

namespace Operand

def isRaw : Operand → Bool
  | raw _ => true
  | reg _ | str _ => false

/-- Reads the inside of a quoted text, up to the mark that ends it. -/
def unquote? : List Char → Option (List Char × List Char)
  | [] => none
  | '"' :: rest => some ([], rest)
  | '\\' :: c :: rest => (unquote? rest).map (Prod.map (c :: ·) id)
  | c :: rest => (unquote? rest).map (Prod.map (c :: ·) id)

/-- Reads a register or a quoted text. -/
def read? : List Char → Option (Operand × List Char)
  | 'r' :: cs =>
    (Numeral.toNat? (cs.takeWhile Char.isDigit)).map fun n => (reg ⟨n⟩, cs.dropWhile Char.isDigit)
  | '"' :: cs => (unquote? cs).map (Prod.map (fun text => str (String.ofList text)) id)
  | _ => none

/-- What stands for a character is read as that character. -/
theorem unquote?_escape (c : Char) (rest : List Char) :
    unquote? (escape c ++ rest) = (unquote? rest).map (Prod.map (c :: ·) id) := by
  by_cases special : c = '\\' ∨ c = '"'
  · rw [escape, if_pos special]
    rfl
  · rw [escape, if_neg special]
    rw [not_or] at special
    simp [unquote?, special]

theorem unquote?_escaped (text rest : List Char) :
    unquote? (text.flatMap escape ++ '"' :: rest) = some (text, rest) := by
  induction text with
  | nil => rfl
  | cons c text ih =>
      rw [List.flatMap_cons, List.append_assoc, unquote?_escape, ih]
      rfl

theorem str_text_toList (text : String) :
    (str text).text.toList = '"' :: (text.toList.flatMap escape ++ ['"']) := by
  simp [Operand.text]

/-- A quoted text is found whatever is written behind it. -/
theorem read?_str (text : String) (rest : List Char) :
    read? ((str text).text.toList ++ rest) = some (str text, rest) := by
  rw [str_text_toList, List.cons_append, List.append_assoc, List.singleton_append, read?,
    unquote?_escaped, Option.map_some, Prod.map_apply, String.ofList_toList, id]

theorem read?_reg (r : Register) {rest : List Char} (h : WordEnd rest) :
    read? ((reg r).text.toList ++ rest) = some (reg r, rest) := by
  have digits : ∀ c ∈ Nat.toDigits 10 r.index, c.isDigit = true := fun c member =>
    Nat.isDigit_of_mem_toDigits (by omega) (by omega) member
  have spelled : (reg r).text.toList = 'r' :: Nat.toDigits 10 r.index := by
    simp [Operand.text, Register.text, Nat.toList_repr]
  rw [spelled, List.cons_append, read?, h.takeWhile_append rfl digits,
    h.dropWhile_append rfl digits, Numeral.toNat?_toDigits, Option.map_some]

theorem read?_text {operand : Operand} (h : operand.isRaw = false) {rest : List Char}
    (ended : WordEnd rest) : read? (operand.text.toList ++ rest) = some (operand, rest) := by
  cases operand with
  | reg r => exact read?_reg r ended
  | str text => exact read?_str text rest
  | raw text => cases h

/-- The operand as it stands in an instruction. -/
def spelling (operand : Operand) : List Char := ' ' :: operand.text.toList

theorem wordEnd_spellings (operands : List Operand) : WordEnd (operands.flatMap spelling) := by
  intro c first
  cases operands with
  | nil => cases first
  | cons operand operands =>
      cases first
      rfl

/-- Operands are read one after the other, so equal spellings are those of equal operands. -/
theorem eq_of_spellings_eq {operands others : List Operand}
    (h : ∀ operand ∈ operands, operand.isRaw = false)
    (h' : ∀ operand ∈ others, operand.isRaw = false)
    (same : operands.flatMap spelling = others.flatMap spelling) : operands = others := by
  induction operands generalizing others with
  | nil =>
      cases others with
      | nil => rfl
      | cons other others => cases same
  | cons operand operands ih =>
      cases others with
      | nil => cases same
      | cons other others =>
          rw [List.forall_mem_cons] at h h'
          have behind : operand.text.toList ++ operands.flatMap spelling =
              other.text.toList ++ others.flatMap spelling := (List.cons.inj same).2
          -- reading takes the first operand off both lists and leaves the others
          have read := congrArg read? behind
          rw [read?_text h.1 (wordEnd_spellings _), read?_text h'.1 (wordEnd_spellings _),
            Option.some.injEq, Prod.mk.injEq] at read
          rw [read.1, ih h.2 h'.2 read.2]

/-- One mark gets a backslash in front of it wherever it stands. -/
def backslashed (mark c : Char) : List Char := if c = mark then ['\\', c] else [c]

/-- Escaping is done in two passes. Backslashes come first, or else those that are put in front of
quotation marks would be escaped as well. -/
theorem flatMap_escape (cs : List Char) :
    cs.flatMap escape = (cs.flatMap (backslashed '\\')).flatMap (backslashed '"') := by
  rw [List.flatMap_assoc]
  refine List.flatMap_congr fun c _ => ?_
  by_cases backslash : c = '\\'
  · rw [backslash]
    rfl
  · simp [escape, backslashed, backslash]

end Operand

namespace Instr

theorem toList_foldl_operands (line : String) (operands : List Operand) :
    (operands.foldl (fun line operand => line ++ " " ++ operand.text) line).toList =
      line.toList ++ operands.flatMap Operand.spelling := by
  induction operands generalizing line with
  | nil => simp
  | cons operand operands ih => simp [ih, Operand.spelling]

theorem text_toList (instr : Instr) :
    instr.text.toList =
      instr.opcode.mnemonic.toList ++ instr.operands.flatMap Operand.spelling :=
  toList_foldl_operands _ _

/-- Every operand is a register or a quoted text. -/
def Legible (instr : Instr) : Prop := ∀ operand ∈ instr.operands, operand.isRaw = false

instance (instr : Instr) : Decidable instr.Legible :=
  inferInstanceAs (Decidable (∀ operand ∈ instr.operands, operand.isRaw = false))

theorem eq_of_text_eq {first second : Instr} (h : first.Legible) (h' : second.Legible)
    (same : first.text = second.text) :
    first.opcode = second.opcode ∧ first.operands = second.operands := by
  have spelled := congrArg String.toList same
  rw [text_toList, text_toList] at spelled
  have read := congrArg Opcode.read? spelled
  rw [Opcode.read?_mnemonic _ (Operand.wordEnd_spellings _),
    Opcode.read?_mnemonic _ (Operand.wordEnd_spellings _), Option.some.injEq,
    Prod.mk.injEq] at read
  exact ⟨read.1, Operand.eq_of_spellings_eq h h' read.2⟩

/-- Instructions of registers and quoted texts that read the same have the same opcode and the same
operands. A quoted text is found in front of anything, so there is one way to take it off. Inside it
backslashes are escaped, and then quotation marks. -/
theorem text_unambiguous :
    (∀ first second : Instr, first.Legible → second.Legible → first.text = second.text →
        first.opcode = second.opcode ∧ first.operands = second.operands) ∧
      (∀ text rest : String, Operand.read? ((Operand.str text).text ++ rest).toList =
        some (.str text, rest.toList)) ∧
      (∀ text rest text' rest' : String,
        (Operand.str text).text ++ rest = (Operand.str text').text ++ rest' →
          text = text' ∧ rest = rest') ∧
      ∀ text : String, (Operand.str text).text.toList = '"' ::
        ((text.toList.flatMap (Operand.backslashed '\\')).flatMap (Operand.backslashed '"') ++
          ['"']) := by
  have found (text rest : String) : Operand.read? ((Operand.str text).text ++ rest).toList =
      some (.str text, rest.toList) := by
    rw [String.toList_append]
    exact Operand.read?_str text rest.toList
  refine ⟨fun first second => eq_of_text_eq, found, ?_, ?_⟩
  · intro text rest text' rest' same
    have read := found text rest
    rw [same, found text' rest', Option.some.injEq, Prod.mk.injEq, Operand.str.injEq] at read
    exact ⟨read.1.symm, (String.toList_inj.mp read.2).symm⟩
  · intro text
    rw [Operand.str_text_toList, Operand.flatMap_escape]

namespace Marks

def origin (line : Nat) : Origin := ⟨⟨7⟩, line⟩

/-- One text with marks in it that look like the end of the text and the start of another. -/
def one (line : Nat) : Instr := ⟨.load, [.reg ⟨10⟩, .str "a\" \"b\\"], origin line⟩

def two : Instr := ⟨.load, [.reg ⟨10⟩, .str "a", .str "b\\"], origin 3⟩

end Marks

open Marks in
theorem text_unambiguous_marks :
    (one 3).Legible ∧ (one 4).Legible ∧ (one 3).text = (one 4).text ∧
      (one 3).operands = (one 4).operands ∧ two.Legible ∧ (one 3).text ≠ two.text ∧
      Operand.read? "\"a\\\" \\\"b\\\\\" \"c\"".toList =
        some (.str "a\" \"b\\", " \"c\"".toList) := by
  have legible : ∀ line, (one line).Legible := fun line => by simp [Legible, one, Operand.isRaw]
  have same : (one 3).text = (one 4).text := rfl
  refine ⟨legible 3, legible 4, same, ?_, by decide, ?_, ?_⟩
  · exact (text_unambiguous.1 (one 3) (one 4) (legible 3) (legible 4) same).2
  · intro alike
    have operands := (text_unambiguous.1 (one 3) two (legible 3) (by decide) alike).2
    simp [one, two] at operands
  · exact text_unambiguous.2.1 "a\" \"b\\" " \"c\""

/-- What is written as it stands may look like a register. -/
example (origin : Origin) :
    (⟨.push, [.raw "r1"], origin⟩ : Instr).text = (⟨.push, [.reg ⟨1⟩], origin⟩ : Instr).text := rfl

end Instr
end ContractLowering
