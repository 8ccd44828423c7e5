import ContractLowering.Listing
import ContractLowering.Proofs.InstructionText

/-!
Listings seen line by line. The text of an instruction is one line unless an operand has a line
break in it, and a text of one line is never taken for a comment, since it starts with a mnemonic. So
the plain listing has a line for each instruction exactly when no instruction has a line break in it,
and exactly then the source line of each instruction can be read off the comments in the other
listing.
-/

namespace ContractLowering
namespace Listing

/-- There is no line break in the text. -/
def OneLine (text : String) : Prop := '\n' ∉ text.toList

instance (text : String) : Decidable (OneLine text) :=
  inferInstanceAs (Decidable ('\n' ∉ text.toList))

theorem oneLine_append {first second : String} :
    OneLine (first ++ second) ↔ OneLine first ∧ OneLine second := by
  simp [OneLine]

theorem oneLine_repr (n : Nat) : OneLine n.repr := by
  intro member
  rw [Nat.toList_repr] at member
  cases Nat.isDigit_of_mem_toDigits (by omega) (by omega) member

/-- What stands between the line breaks of a text. -/
def pieces (text : String) : List String := (text.toList.splitOn '\n').map String.ofList

/-- The lines of a text. No line starts behind a line break at the very end. -/
def lines (text : String) : List String :=
  if (pieces text).getLast? = some "" then (pieces text).dropLast else pieces text

/-- The text with these lines. -/
def unlines (lines : List String) : String := String.join (lines.map (· ++ "\n"))

section Lines

variable {text line : String}

theorem pieces_ne_nil (text : String) : pieces text ≠ [] := by
  simp [pieces, List.splitOn_ne_nil]

theorem pieces_of_oneLine (h : OneLine text) : pieces text = [text] := by
  rw [pieces, List.splitOn_eq_singleton h, List.map_singleton, String.ofList_toList]

theorem not_mem_of_mem_splitOn {cs piece : List Char} (h : piece ∈ cs.splitOn '\n') :
    '\n' ∉ piece := by
  induction cs generalizing piece with
  | nil =>
      rw [List.splitOn_nil, List.mem_singleton] at h
      simp [h]
  | cons c cs ih =>
      rw [List.splitOn_cons_eq_if_modifyHead] at h
      obtain ⟨first, others, heq⟩ := List.exists_cons_of_ne_nil (List.splitOn_ne_nil '\n' cs)
      rw [heq] at h ih
      by_cases hc : c = '\n'
      · rw [if_pos (by simp [hc]), List.mem_cons] at h
        rcases h with rfl | inside
        · simp
        · exact ih inside
      · rw [if_neg (by simp [hc]), List.modifyHead_cons, List.mem_cons] at h
        rcases h with rfl | inside
        · simpa [Ne.symm hc] using ih List.mem_cons_self
        · exact ih (List.mem_cons_of_mem _ inside)

theorem oneLine_of_mem_pieces (h : line ∈ pieces text) : OneLine line := by
  obtain ⟨piece, member, rfl⟩ := List.mem_map.mp h
  rw [OneLine, String.toList_ofList]
  exact not_mem_of_mem_splitOn member

theorem oneLine_of_mem_lines (h : line ∈ lines text) : OneLine line := by
  rw [lines] at h
  split at h
  · exact oneLine_of_mem_pieces (List.dropLast_subset _ h)
  · exact oneLine_of_mem_pieces h

theorem pieces_append (first rest : String) :
    pieces (first ++ "\n" ++ rest) = pieces first ++ pieces rest := by
  have chars : (first ++ "\n" ++ rest).toList = first.toList ++ '\n' :: rest.toList := by simp
  rw [pieces, chars, List.splitOn_append_cons_self, List.map_append]
  rfl

/-- A text is cut at a line break inside it. -/
theorem lines_append (first rest : String) :
    lines (first ++ "\n" ++ rest) = pieces first ++ lines rest := by
  have last : (pieces first ++ pieces rest).getLast? = (pieces rest).getLast? :=
    List.getLast?_append_of_ne_nil _ (pieces_ne_nil rest)
  rw [lines, lines, pieces_append, last, List.dropLast_append_of_ne_nil (pieces_ne_nil rest)]
  split <;> rfl

@[simp]
theorem unlines_nil : unlines [] = "" := rfl

@[simp]
theorem unlines_cons (line : String) (rest : List String) :
    unlines (line :: rest) = line ++ "\n" ++ unlines rest := by
  simp [unlines]

theorem unlines_append (first rest : List String) :
    unlines (first ++ rest) = unlines first ++ unlines rest := by
  simp [unlines]

theorem lines_unlines {all : List String} (h : ∀ line ∈ all, OneLine line) :
    lines (unlines all) = all := by
  induction all with
  | nil => rfl
  | cons line rest ih =>
      rw [List.forall_mem_cons] at h
      rw [unlines_cons, lines_append, pieces_of_oneLine h.1, ih h.2, List.singleton_append]

theorem toList_unlines_splitOn (cs : List Char) :
    (unlines ((cs.splitOn '\n').map String.ofList)).toList = cs ++ ['\n'] := by
  induction cs with
  | nil => simp
  | cons c cs ih =>
      rw [List.splitOn_cons_eq_if_modifyHead]
      obtain ⟨first, others, heq⟩ := List.exists_cons_of_ne_nil (List.splitOn_ne_nil '\n' cs)
      rw [heq] at ih ⊢
      by_cases hc : c = '\n'
      · rw [if_pos (by simp [hc]), List.map_cons, unlines_cons, String.toList_append, ih, hc]
        simp
      · rw [if_neg (by simp [hc])]
        simpa using ih

theorem unlines_pieces (text : String) : unlines (pieces text) = text ++ "\n" := by
  rw [← String.toList_inj, pieces, toList_unlines_splitOn, String.toList_append]
  rfl

end Lines

section Plain

theorem plain_eq_unlines (code : List Instr) : plain code = unlines (code.map Instr.text) := by
  simp [plain, unlines, Function.comp_def]

theorem plain_cons (instr : Instr) (code : List Instr) :
    plain (instr :: code) = instr.text ++ "\n" ++ plain code := by
  rw [plain_eq_unlines, List.map_cons, unlines_cons, ← plain_eq_unlines]

theorem lines_plain_cons (instr : Instr) (code : List Instr) :
    lines (plain (instr :: code)) = pieces instr.text ++ lines (plain code) := by
  rw [plain_cons, lines_append]

theorem unlines_lines_plain (code : List Instr) : unlines (lines (plain code)) = plain code := by
  induction code with
  | nil => rfl
  | cons instr code ih =>
      rw [lines_plain_cons, unlines_append, unlines_pieces, ih, plain_cons]

/-- A listing has one line for each instruction if no instruction has a line break, and else not. -/
theorem lines_plain_eq_iff (code : List Instr) :
    lines (plain code) = code.map Instr.text ↔ ∀ instr ∈ code, OneLine instr.text := by
  constructor
  · intro each instr member
    have line : instr.text ∈ lines (plain code) := by
      rw [each]
      exact List.mem_map_of_mem member
    exact oneLine_of_mem_lines line
  · intro h
    rw [plain_eq_unlines]
    exact lines_unlines (List.forall_mem_map.mpr h)

end Plain

section Comments

def isComment (line : String) : Bool := ['/', '/'].isPrefixOf line.toList

/-- The text without the lines that are comments. -/
def withoutComments (text : String) : String :=
  unlines ((lines text).filter fun line => !isComment line)

/-- The comment that names a source line. -/
def comment (line : Nat) : String := "// line " ++ line.repr

/-- The source line that a comment names. -/
def named? (line : String) : Option Nat :=
  if line.toList.take 8 = "// line ".toList then Numeral.toNat? (line.toList.drop 8) else none

/-- The lines that are no comments, each with the source line that was named last above it. -/
def attributed (shown : Option Nat) : List String → List (Option Nat × String)
  | [] => []
  | line :: rest =>
    if isComment line then attributed ((named? line).or shown) rest
    else (shown, line) :: attributed shown rest

theorem map_snd_attributed (shown : Option Nat) (all : List String) :
    (attributed shown all).map Prod.snd = all.filter fun line => !isComment line := by
  induction all generalizing shown with
  | nil => rfl
  | cons line rest ih => cases h : isComment line <;> simp [attributed, h, ih]

theorem isComment_comment (line : Nat) : isComment (comment line) = true := by
  simp [isComment, comment]

theorem named?_comment (line : Nat) : named? (comment line) = some line := by
  simp [named?, comment, Nat.toList_repr, Numeral.toNat?_toDigits]

theorem oneLine_comment (line : Nat) : OneLine (comment line) :=
  oneLine_append.mpr ⟨by decide, oneLine_repr line⟩

theorem isComment_text (instr : Instr) : isComment instr.text = false := by
  rw [isComment, Instr.text_toList]
  cases instr.opcode <;> rfl

/-- The comment in front of an instruction, if there is one. -/
def heading (shown : Option Nat) (line : Nat) : List String :=
  if shown = some line then [] else [comment line]

theorem lines_withLines_cons (shown : Option Nat) (instr : Instr) (code : List Instr) :
    lines (withLines shown (instr :: code)) = heading shown instr.origin.line ++
      (pieces instr.text ++ lines (withLines (some instr.origin.line) code)) := by
  rw [withLines, heading]
  split
  · rw [String.empty_append, lines_append, List.nil_append]
  · have cut (rest : String) : "// line " ++ instr.origin.line.repr ++ "\n" ++ instr.text ++ "\n" ++
        rest = comment instr.origin.line ++ "\n" ++ (instr.text ++ "\n" ++ rest) := by
      simp [comment, String.append_assoc]
    rw [cut, lines_append, lines_append, pieces_of_oneLine (oneLine_comment _)]

/-- Without comments the two listings are the same. -/
theorem filter_lines_withLines (shown : Option Nat) (code : List Instr) :
    (lines (withLines shown code)).filter (fun line => !isComment line) =
      (lines (plain code)).filter fun line => !isComment line := by
  induction code generalizing shown with
  | nil => rfl
  | cons instr code ih =>
      have none_left : (heading shown instr.origin.line).filter (fun line => !isComment line) =
          [] := by
        rw [heading]
        split <;> simp [isComment_comment]
      rw [lines_withLines_cons, lines_plain_cons, List.filter_append, none_left, List.filter_append,
        List.filter_append, ih, List.nil_append]

theorem attributed_withLines {code : List Instr} (h : ∀ instr ∈ code, OneLine instr.text)
    (shown : Option Nat) :
    attributed shown (lines (withLines shown code)) =
      code.map fun instr => (some instr.origin.line, instr.text) := by
  induction code generalizing shown with
  | nil => rfl
  | cons instr code ih =>
      rw [List.forall_mem_cons] at h
      have rest := ih h.2 (some instr.origin.line)
      rw [lines_withLines_cons, pieces_of_oneLine h.1, heading]
      by_cases same : shown = some instr.origin.line
      · simp [same, attributed, isComment_text, rest]
      · simp [same, attributed, isComment_comment, named?_comment, isComment_text, rest]

/-- The source lines can be read off a listing if no instruction has a line break, and else not. -/
theorem attributed_eq_iff (code : List Instr) :
    attributed none (lines (withLines none code)) =
        code.map (fun instr => (some instr.origin.line, instr.text)) ↔
      ∀ instr ∈ code, OneLine instr.text := by
  constructor
  · intro each instr member
    -- every text is a line of the listing, and no line has a line break in it
    have texts := congrArg (List.map Prod.snd) each
    rw [map_snd_attributed, List.map_map] at texts
    have line : instr.text ∈ (lines (withLines none code)).filter fun line => !isComment line := by
      rw [texts]
      exact List.mem_map_of_mem (f := fun instr : Instr => instr.text) member
    exact oneLine_of_mem_lines (List.mem_of_mem_filter line)
  · intro h
    exact attributed_withLines h none

/-- Without its comments a listing is the plain one if no line of that looks like a comment, and
else not. -/
theorem withoutComments_eq_iff (code : List Instr) :
    withoutComments (withLines none code) = plain code ↔
      ∀ line ∈ lines (plain code), isComment line = false := by
  rw [withoutComments, filter_lines_withLines]
  constructor
  · intro same
    have kept := congrArg lines same
    rw [lines_unlines fun line member => oneLine_of_mem_lines (List.mem_of_mem_filter member),
      List.filter_eq_self] at kept
    simpa using kept
  · intro h
    rw [List.filter_eq_self.mpr (by simpa using h), unlines_lines_plain]

end Comments

end Listing
end ContractLowering
