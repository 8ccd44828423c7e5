import ContractLowering.Json.Printer
import ContractLowering.Json.Token

/-!
Scanning what was written. A written value consists of its tokens with nothing but blanks between them,
so the scanner finds these tokens, whatever stands behind the value: a text ends with its quotation mark,
and a word is always followed by a blank or a mark.
-/

namespace ContractLowering

namespace Numeral

theorem head?_toDigits (n : Nat) (h : 0 < n) : (Nat.toDigits 10 n).head? ≠ some '0' := by
  induction n using Nat.strongRecOn with
  | ind n ih =>
      by_cases small : n < 10
      · rw [Nat.toDigits_of_lt_base small, List.head?_cons, ne_eq, Option.some.injEq,
          Nat.digitChar_eq_zero]
        omega
      · have front := ih (n / 10) (by omega) (by omega)
        rw [Nat.toDigits_of_base_le (by decide) (by omega), List.head?_append]
        cases hfront : (Nat.toDigits 10 (n / 10)).head? with
        | none => exact absurd (List.head?_eq_none_iff.mp hfront) Nat.toDigits_ne_nil
        | some c => rwa [hfront] at front

theorem isWhole_toDigits (n : Nat) : isWhole (Nat.toDigits 10 n) = true := by
  have digits : isDigits (Nat.toDigits 10 n) = true := by
    rw [isDigits, Bool.and_eq_true, List.all_eq_true]
    refine ⟨by simp [Nat.toDigits_ne_nil], ?_⟩
    intro c member
    exact Nat.isDigit_of_mem_toDigits (by omega) (by omega) member
  rw [isWhole, digits, Bool.true_and, Bool.or_eq_true]
  cases n with
  | zero => exact .inr rfl
  | succ n => exact .inl (by simpa using head?_toDigits (n + 1) (by omega))

theorem toNat?_toDigits (n : Nat) : toNat? (Nat.toDigits 10 n) = some n := by
  rw [toNat?, if_pos (isWhole_toDigits n), Nat.ofDigitChars_ten_toDigits]

end Numeral

namespace Text

theorem isHalf_toNat (c : Char) : isHalf c.toNat = false := by
  have valid : c.toNat < 0xD800 ∨ 0xDFFF < c.toNat ∧ c.toNat < 0x110000 := c.valid
  simp only [isHalf, isHighHalf, isLowHalf, Bool.or_eq_false_iff, Bool.and_eq_false_iff,
    decide_eq_false_iff_not]
  omega

theorem charsOfCodes?_toNat (cs : List Char) : charsOfCodes? (cs.map Char.toNat) = some cs := by
  induction cs with
  | nil => rfl
  | cons c cs ih =>
      have whole := isHalf_toNat c
      cases cs with
      | nil => simp [charsOfCodes?, whole]
      | cons d ds =>
          have high : isHighHalf c.toNat = false := (Bool.or_eq_false_iff.mp whole).1
          rw [List.map_cons] at ih
          simp [charsOfCodes?, whole, high, ih]

theorem ofCodes?_toNat (s : String) : ofCodes? (s.toList.map Char.toNat) = some s := by
  rw [ofCodes?, charsOfCodes?_toNat, Option.map_some, String.ofList_toList]

theorem hexValue?_digitChar : ∀ d < 16, hexValue? d.digitChar = some d := by decide

/-- A character is written by a short escape, by its code or as it is. -/
theorem escape_cases (c : Char) :
    (∃ d, escape c = ['\\', d] ∧ escapedCode? d = some c.toNat ∧ d ≠ 'u') ∨
    (c.toNat < 0x20 ∧ escape c =
      ['\\', 'u', '0', '0', (c.toNat / 16).digitChar, (c.toNat % 16).digitChar]) ∨
    (c ≠ '"' ∧ c ≠ '\\' ∧ isControl c = false ∧ escape c = [c]) := by
  by_cases short : c ∈ ['"', '\\', '\x08', '\x0c', '\n', '\r', '\t']
  · left
    simp only [List.mem_cons, List.not_mem_nil, or_false] at short
    rcases short with rfl | rfl | rfl | rfl | rfl | rfl | rfl <;> exact ⟨_, rfl, rfl, by decide⟩
  · right
    simp only [List.mem_cons, List.not_mem_nil, or_false, not_or] at short
    obtain ⟨quote, backslash, others⟩ := short
    by_cases control : isControl c = true
    · exact .inl ⟨by simpa [isControl] using control,
        by simp [escape, quote, backslash, others, control]⟩
    · rw [Bool.not_eq_true] at control
      exact .inr ⟨quote, backslash, control, by simp [escape, quote, backslash, others, control]⟩

end Text

namespace Token

/-- The tokens that are found from a point on, behind those found before. -/
def scanFrom (scan : Scan) (chars : List Char) : Option (List Token) :=
  (chars.foldlM Scan.step scan).bind Scan.finish

theorem scanFrom_cons (scan : Scan) (c : Char) (chars : List Char) :
    scanFrom scan (c :: chars) = (scan.step c).bind fun scan => scanFrom scan chars := by
  rw [scanFrom, List.foldlM_cons, Option.bind_eq_bind, Option.bind_assoc]
  rfl

section Texts

variable (codes : List Nat) (tokens : List Token) (rest : List Char)

/-- However a character is written, it is read as its code. -/
theorem scanFrom_escape (c : Char) :
    scanFrom ⟨.text codes, tokens⟩ (Text.escape c ++ rest) =
      scanFrom ⟨.text (c.toNat :: codes), tokens⟩ rest := by
  rcases Text.escape_cases c with ⟨d, hc, hd, hu⟩ | ⟨small, hc⟩ | ⟨quote, backslash, plain, hc⟩
  · simp [hc, scanFrom_cons, Scan.step, hd, hu]
  · have tens := Text.hexValue?_digitChar (c.toNat / 16) (by omega)
    have ones := Text.hexValue?_digitChar (c.toNat % 16) (by omega)
    have zero : Text.hexValue? '0' = some 0 := rfl
    simp [hc, scanFrom_cons, Scan.step, zero, tens, ones, Nat.div_add_mod]
  · simp [hc, scanFrom_cons, Scan.step, quote, backslash, plain]

theorem scanFrom_escapes (cs : List Char) :
    scanFrom ⟨.text codes, tokens⟩ (cs.flatMap Text.escape ++ rest) =
      scanFrom ⟨.text ((cs.map Char.toNat).reverse ++ codes), tokens⟩ rest := by
  induction cs generalizing codes with
  | nil => rfl
  | cons c cs ih =>
      rw [List.flatMap_cons, List.append_assoc, scanFrom_escape, ih, List.map_cons,
        List.reverse_cons, List.append_assoc]
      rfl

theorem scanFrom_quote (s : String) :
    scanFrom ⟨.between, tokens⟩ (Text.quote s ++ rest) =
      scanFrom ⟨.between, .text (some s) :: tokens⟩ rest := by
  rw [Text.quote, List.cons_append, List.cons_append, List.append_assoc, scanFrom_cons]
  change scanFrom ⟨.text [], tokens⟩ (s.toList.flatMap Text.escape ++ '"' :: rest) = _
  rw [scanFrom_escapes, scanFrom_cons, List.append_nil]
  simp [Scan.step, Text.ofCodes?_toNat]

end Texts

/-- Whatever word stands in front, it ends here. -/
def Breaks (chars : List Char) : Prop := ∀ c, chars.head? = some c → endsWord c = true

theorem breaks_nil : Breaks [] := fun _ h => nomatch h

theorem breaks_cons {c : Char} (h : endsWord c = true) (chars : List Char) : Breaks (c :: chars) := by
  intro d hd
  cases hd
  exact h

theorem Breaks.append {chars chars' : List Char} (h : Breaks chars) (h' : Breaks chars') :
    Breaks (chars ++ chars') := by
  cases chars with
  | nil => exact h'
  | cons c chars => exact breaks_cons (h c rfl) _

section Words

variable (tokens : List Token) (rest : List Char)

theorem scanFrom_blanks {blanks : List Char} (h : ∀ c ∈ blanks, isBlank c = true) :
    scanFrom ⟨.between, tokens⟩ (blanks ++ rest) = scanFrom ⟨.between, tokens⟩ rest := by
  induction blanks with
  | nil => rfl
  | cons c blanks ih =>
      have skipped : Scan.start tokens c = ⟨.between, tokens⟩ := by
        have blank := h c List.mem_cons_self
        simp only [isBlank, Bool.or_eq_true, decide_eq_true_eq, or_assoc] at blank
        rcases blank with rfl | rfl | rfl | rfl <;> rfl
      rw [List.cons_append, scanFrom_cons, Scan.step, skipped]
      exact ih fun d hd => h d (List.mem_cons_of_mem _ hd)

theorem scanFrom_mark {c : Char} {token : Token} (h : ofMark? c = some token) :
    scanFrom ⟨.between, tokens⟩ (c :: rest) = scanFrom ⟨.between, token :: tokens⟩ rest := by
  simp [scanFrom_cons, Scan.step, Scan.start, h]

/-- The end of a word is found at the character behind it, or at the end of all. -/
theorem scanFrom_word_end {chars : List Char} {token : Token}
    (h : ofWord? chars.reverse = some token) (breaks : Breaks rest) :
    scanFrom ⟨.word chars, tokens⟩ rest = scanFrom ⟨.between, token :: tokens⟩ rest := by
  cases rest with
  | nil => simp [scanFrom, Scan.finish, h]
  | cons c rest => simp [scanFrom_cons, Scan.step, breaks c rfl, h]

theorem scanFrom_word_inside (begun : List Char) {chars : List Char}
    (plain : ∀ c ∈ chars, endsWord c = false) :
    scanFrom ⟨.word begun, tokens⟩ (chars ++ rest) =
      scanFrom ⟨.word (chars.reverse ++ begun), tokens⟩ rest := by
  induction chars generalizing begun with
  | nil => rfl
  | cons c chars ih =>
      obtain ⟨hc, others⟩ := List.forall_mem_cons.mp plain
      rw [List.cons_append, scanFrom_cons]
      simp [Scan.step, hc, ih (c :: begun) others]

theorem start_word {c : Char} (h : endsWord c = false) : Scan.start tokens c = ⟨.word [c], tokens⟩ := by
  simp only [endsWord, Bool.or_eq_false_iff, decide_eq_false_iff_not] at h
  obtain ⟨⟨blank, mark⟩, quote⟩ := h
  have unmarked : ofMark? c = none := by simpa using mark
  simp [Scan.start, unmarked, blank, quote]

theorem scanFrom_word {word : List Char} {token : Token} (h : ofWord? word = some token)
    (plain : ∀ c ∈ word, endsWord c = false) (nonempty : word ≠ []) (breaks : Breaks rest) :
    scanFrom ⟨.between, tokens⟩ (word ++ rest) = scanFrom ⟨.between, token :: tokens⟩ rest := by
  cases word with
  | nil => exact absurd rfl nonempty
  | cons c chars =>
      obtain ⟨hc, others⟩ := List.forall_mem_cons.mp plain
      -- The scanner holds the characters of a word last one first.
      have held : ofWord? (chars.reverse ++ [c]).reverse = some token := by simpa using h
      rw [List.cons_append, scanFrom_cons, Scan.step, start_word tokens hc, Option.bind_some,
        scanFrom_word_inside tokens rest [c] others]
      exact scanFrom_word_end tokens rest held breaks

end Words

theorem isDigit_of_endsWord {c : Char} (h : endsWord c = true) : c.isDigit = false := by
  simp only [endsWord, isBlank, Bool.or_eq_true, decide_eq_true_eq, or_assoc] at h
  rcases h with rfl | rfl | rfl | rfl | mark | rfl
  case inr.inr.inr.inr.inl =>
    unfold ofMark? at mark
    split at mark
    case h_7 => cases mark
    all_goals rfl
  all_goals rfl

theorem ofWord?_toDigits (n : Nat) : ofWord? (Nat.toDigits 10 n) = some (nat n) := by
  have other {word : List Char} {c : Char} (member : c ∈ word) (hc : c.isDigit = false) :
      Nat.toDigits 10 n ≠ word := by
    intro heq
    have digit := Nat.isDigit_of_mem_toDigits (by omega) (by omega) (heq ▸ member)
    rw [hc] at digit
    cases digit
  have null : Nat.toDigits 10 n ≠ "null".toList := other (c := 'n') (by decide) rfl
  have yes : Nat.toDigits 10 n ≠ "true".toList := other (c := 't') (by decide) rfl
  have no : Nat.toDigits 10 n ≠ "false".toList := other (c := 'f') (by decide) rfl
  simp only [ofWord?, null, yes, no, if_false, decide_false, Bool.or_self, Bool.false_eq_true,
    Numeral.toNat?_toDigits]

end Token

namespace Json

mutual

/-- The tokens of a value as it is written. -/
def tokens : Json → List Token
  | null => [.null]
  | nat n => [.nat n]
  | str s => [.text (some s)]
  | foreign => [.foreign]
  | arr [] => [.openArr, .closeArr]
  | arr (j :: js) => .openArr :: (j.tokens ++ itemTokens js ++ [.closeArr])
  | obj [] => [.openObj, .closeObj]
  | obj ((key, j) :: members) =>
    .openObj :: .text (some key) :: .colon :: (j.tokens ++ memberTokens members ++ [.closeObj])

/-- Those of the items after the first. -/
def itemTokens : List Json → List Token
  | [] => []
  | j :: js => .comma :: (j.tokens ++ itemTokens js)

def memberTokens : List (String × Json) → List Token
  | [] => []
  | (key, j) :: members =>
    .comma :: .text (some key) :: .colon :: (j.tokens ++ memberTokens members)

end

@[induction_eliminator]
theorem induction {motive : Json → Prop} (null : motive .null) (nat : ∀ n, motive (.nat n))
    (str : ∀ s, motive (.str s)) (arr : ∀ items, (∀ j ∈ items, motive j) → motive (.arr items))
    (obj : ∀ members, (∀ m ∈ members, motive m.2) → motive (.obj members))
    (foreign : motive .foreign) (j : Json) : motive j :=
  match j with
  | .null => null
  | .nat n => nat n
  | .str s => str s
  | .arr items => arr items fun j _ => induction null nat str arr obj foreign j
  | .obj members => obj members fun (_, j) _ => induction null nat str arr obj foreign j
  | .foreign => foreign
decreasing_by
  · have smaller := List.sizeOf_lt_of_mem ‹j ∈ items›
    simp only [Json.arr.sizeOf_spec]
    omega
  · have smaller := List.sizeOf_lt_of_mem ‹(_, j) ∈ members›
    simp only [Json.obj.sizeOf_spec, Prod.mk.sizeOf_spec] at smaller ⊢
    omega

/-- Nothing but blanks is put between tokens. -/
structure Layout.IsBlank (layout : Layout) : Prop where
  lineBreak : ∀ depth, ∀ c ∈ layout.lineBreak depth, Token.isBlank c = true
  afterColon : ∀ c ∈ layout.afterColon, Token.isBlank c = true

theorem Layout.compact_isBlank : compact.IsBlank :=
  ⟨fun _ _ member => (List.not_mem_nil member).elim, fun _ member => (List.not_mem_nil member).elim⟩

theorem Layout.indented_isBlank : indented.IsBlank := by
  refine ⟨?_, List.all_eq_true.mp rfl⟩
  intro depth c member
  rcases List.mem_cons.mp member with rfl | blank
  · rfl
  · rw [(List.mem_replicate.mp blank).2]
    rfl

open Token

theorem Layout.IsBlank.breaks {layout : Layout} (blank : layout.IsBlank) (depth : Nat) :
    Breaks (layout.lineBreak depth) := by
  intro c hc
  rw [endsWord, blank.lineBreak depth c (List.mem_of_mem_head? hc)]
  rfl

/-- From a point between tokens, scanning the text finds these tokens and goes on behind it. -/
def ScansAs (text : List Char) (found : List Token) : Prop :=
  ∀ tokens rest, Breaks rest →
    scanFrom ⟨.between, tokens⟩ (text ++ rest) = scanFrom ⟨.between, found.reverse ++ tokens⟩ rest

namespace ScansAs

variable {text text' : List Char} {found found' : List Token}

theorem nil : ScansAs [] [] := fun _ _ _ => rfl

theorem mark {c : Char} {token : Token} (hc : ofMark? c = some token) (h : ScansAs text found) :
    ScansAs (c :: text) (token :: found) := by
  intro tokens rest breaks
  rw [List.cons_append, scanFrom_mark _ _ hc, h _ _ breaks, List.reverse_cons, List.append_assoc]
  rfl

theorem blanks {blanks : List Char} (hblanks : ∀ c ∈ blanks, isBlank c = true)
    (h : ScansAs text found) : ScansAs (blanks ++ text) found := by
  intro tokens rest breaks
  rw [List.append_assoc, scanFrom_blanks _ _ hblanks, h _ _ breaks]

theorem quote (s : String) (h : ScansAs text found) :
    ScansAs (Text.quote s ++ text) (.text (some s) :: found) := by
  intro tokens rest breaks
  rw [List.append_assoc, scanFrom_quote, h _ _ breaks, List.reverse_cons, List.append_assoc]
  rfl

theorem word {word : List Char} {token : Token} (hword : ofWord? word = some token)
    (plain : word.any endsWord = false) (nonempty : word ≠ []) : ScansAs word [token] := by
  have unended (c : Char) (member : c ∈ word) : endsWord c = false :=
    Bool.eq_false_iff.mpr (List.any_eq_false.mp plain c member)
  exact fun tokens rest breaks => scanFrom_word tokens rest hword unended nonempty breaks

/-- What follows has to end a word. -/
theorem append (h : ScansAs text found) (breaks' : Breaks text') (h' : ScansAs text' found') :
    ScansAs (text ++ text') (found ++ found') := by
  intro tokens rest breaks
  rw [List.append_assoc, h _ _ (breaks'.append breaks), h' _ _ breaks, List.reverse_append,
    List.append_assoc]

end ScansAs

section Written

variable {layout : Layout} (blank : layout.IsBlank)

theorem writeItems_breaks (depth : Nat) (js : List Json) :
    Breaks (writeItems layout depth js) := by
  cases js with
  | nil => exact breaks_nil
  | cons j js => exact breaks_cons rfl _

theorem writeMembers_breaks (depth : Nat) (members : List (String × Json)) :
    Breaks (writeMembers layout depth members) := by
  cases members with
  | nil => exact breaks_nil
  | cons m members => exact breaks_cons rfl _

include blank

/-- The mark at the end of a container, behind a line break. -/
theorem close_scansAs (depth : Nat) {c : Char} {token : Token} (hc : ofMark? c = some token) :
    Breaks (layout.lineBreak depth ++ [c]) ∧ ScansAs (layout.lineBreak depth ++ [c]) [token] := by
  refine ⟨(blank.breaks depth).append (breaks_cons ?_ []),
    .blanks (blank.lineBreak depth) (.mark hc .nil)⟩
  simp [endsWord, hc]

theorem writeItems_scansAs (depth : Nat) {js : List Json}
    (ih : ∀ j ∈ js, ∀ depth, ScansAs (j.write layout depth) j.tokens) :
    ScansAs (writeItems layout depth js) (itemTokens js) := by
  induction js with
  | nil => exact .nil
  | cons j js ihjs =>
      have first := ih j List.mem_cons_self depth
      have others := ihjs fun j hj => ih j (List.mem_cons_of_mem _ hj)
      simp only [writeItems, itemTokens, List.cons_append, List.append_assoc]
      exact .mark rfl (.blanks (blank.lineBreak depth)
        (first.append (writeItems_breaks depth js) others))

theorem writeMembers_scansAs (depth : Nat) {members : List (String × Json)}
    (ih : ∀ m ∈ members, ∀ depth, ScansAs (m.2.write layout depth) m.2.tokens) :
    ScansAs (writeMembers layout depth members) (memberTokens members) := by
  induction members with
  | nil => exact .nil
  | cons m members ihms =>
      obtain ⟨key, j⟩ := m
      have first := ih _ List.mem_cons_self depth
      have others := ihms fun m hm => ih m (List.mem_cons_of_mem _ hm)
      simp only [writeMembers, memberTokens, List.cons_append, List.append_assoc]
      exact .mark rfl (.blanks (blank.lineBreak depth) (.quote key (.mark rfl
        (.blanks blank.afterColon (first.append (writeMembers_breaks depth members) others)))))

theorem write_scansAs (j : Json) (depth : Nat) : ScansAs (j.write layout depth) j.tokens := by
  induction j generalizing depth with
  | null =>
      simp only [write, tokens]
      exact .word rfl rfl (by decide)
  | nat n =>
      simp only [write, tokens]
      refine .word (ofWord?_toDigits n) (List.any_eq_false.mpr ?_) Nat.toDigits_ne_nil
      -- No digit ends a word.
      intro c member ends
      have digit := Nat.isDigit_of_mem_toDigits (by omega) (by omega) member
      rw [isDigit_of_endsWord ends] at digit
      cases digit
  | str s =>
      have quoted := ScansAs.nil.quote s
      rw [List.append_nil] at quoted
      simpa only [write, tokens] using quoted
  | foreign =>
      simp only [write, tokens]
      exact .word rfl rfl (by decide)
  | arr items ih =>
      cases items with
      | nil =>
          simp only [write, tokens]
          exact .mark rfl (.mark rfl .nil)
      | cons j js =>
          -- A comma, a line break or the closing mark stands behind an item, and each ends a word.
          obtain ⟨breaks, closed⟩ := close_scansAs blank depth (c := ']') rfl
          have first := ih j List.mem_cons_self (depth + 1)
          have others := writeItems_scansAs blank (depth + 1)
            fun j hj => ih j (List.mem_cons_of_mem _ hj)
          simp only [write, tokens, List.cons_append, List.append_assoc]
          exact .mark rfl (.blanks (blank.lineBreak _) (first.append
            ((writeItems_breaks _ js).append breaks) (others.append breaks closed)))
  | obj members ih =>
      cases members with
      | nil =>
          simp only [write, tokens]
          exact .mark rfl (.mark rfl .nil)
      | cons m members =>
          obtain ⟨key, j⟩ := m
          obtain ⟨breaks, closed⟩ := close_scansAs blank depth (c := '}') rfl
          have first := ih _ List.mem_cons_self (depth + 1)
          have others := writeMembers_scansAs blank (depth + 1)
            fun m hm => ih m (List.mem_cons_of_mem _ hm)
          simp only [write, tokens, List.cons_append, List.append_assoc]
          exact .mark rfl (.blanks (blank.lineBreak _) (.quote key (.mark rfl
            (.blanks blank.afterColon (first.append
              ((writeMembers_breaks _ members).append breaks) (others.append breaks closed))))))

/-- The tokens of a written value are found again. -/
theorem scan?_write (j : Json) (depth : Nat) : scan? (j.write layout depth) = some j.tokens := by
  have found := write_scansAs blank j depth [] [] breaks_nil
  rw [List.append_nil, List.append_nil] at found
  refine Eq.trans found ?_
  simp [scanFrom, Scan.finish]

end Written

end Json
end ContractLowering
