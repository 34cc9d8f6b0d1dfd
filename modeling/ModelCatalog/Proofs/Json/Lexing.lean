/-
  ModelCatalog/Proofs/Json/Lexing.lean
  ====================================
  **The tokens of a text that was written.**

  A text is read one character at a time, and what it is read as depends on what comes
  behind it only where it ends in a word.  So a text that was written `Spells` its tokens,
  whatever was read before, up to a last word that is still open; a mark closes it, and
  texts put together spell their tokens one after the other
  (`Closes.append_spells`).  Every value spells the tokens of what it is read as
  (`spells_render`): numbers as one word, quoted texts character by character, and the
  rest by marks between what is inside.
-/
import ModelCatalog.Json.Token
import ModelCatalog.Json.Writer
import ModelCatalog.Proofs.Json.Approximation

namespace ModelCatalog

/-! ### Whole numbers -/

namespace Numeral

theorem scan?_digits (n : Nat) : scan? (digits n) = some ⟨digits n, none, none⟩ := by
  have hproper : Proper ⟨digits n, none, none⟩ :=
    ⟨allDigits_digits n, digits_ne_nil n, nofun, nofun, length_digits_le_one⟩
  have hscan := scan?_text hproper
  rwa [text, fractionText, exponentText, List.append_nil, List.append_nil] at hscan

end Numeral

namespace Number

/-- A whole number in range, unless it is minus zero. -/
theorem ofWord?_whole (negative : Bool) {n : Nat} (hzero : negative = true → n ≠ 0)
    (hfits : Fits (if negative then -(n : Int) else n)) :
    ofWord? ((if negative then ['-'] else []) ++ digits n) =
      some (.integer (if negative then -(n : Int) else n)) := by
  have hsign : (negative && (n : Int) == 0) = false := by
    cases negative with
    | false => rfl
    | true => simpa using hzero rfl
  have hhead : ∀ c ∈ (digits n).head?, c ≠ '-' := fun c hc =>
    ne_of_isDigit (allDigits_digits n c (List.mem_of_mem_head? hc)) rfl
  have hempty : (digits n).isEmpty = false := List.isEmpty_eq_false_iff.mpr (digits_ne_nil n)
  have hleading : ((digits n).head? == some '0' && decide (1 < (digits n).length)) = false := by
    rw [Bool.and_eq_false_imp]
    intro h
    exact decide_eq_false (Nat.not_lt.mpr (Numeral.length_digits_le_one (eq_of_beq h)))
  rw [ofWord?_signed negative hhead, Numeral.scan?_digits, Option.bind_some]
  simp only [ofNumeral?, hempty, hleading, ofDigits_digits, hsign, hfits]
  rfl

/-- The words of whole numbers in range. -/
theorem ofWord?_integer {n : Int} (h : Fits n) :
    ofWord? (toString n).toList = some (.integer n) := by
  rw [Int.toString_eq_repr, Int.repr_eq_if]
  split
  · rename_i hnonneg
    have hvalue : (n.toNat : Int) = n := Int.toNat_of_nonneg hnonneg
    have hword := ofWord?_whole false (n := n.toNat) (by simp) (by simpa [hvalue] using h)
    rw [← Nat.toString_eq_repr, toList_toString, ← List.nil_append (digits n.toNat)]
    simpa [hvalue] using hword
  · rename_i hneg
    have hvalue : -((-n).toNat : Int) = n := by omega
    have hword := ofWord?_whole true (n := (-n).toNat) (fun _ => by omega)
      (by simpa only [if_true, hvalue] using h)
    have hminus : "-".toList = ['-'] := rfl
    rw [String.toList_append, ← Nat.toString_eq_repr, toList_toString, hminus]
    simpa only [if_true, hvalue] using hword

/-- The number that the text of a number is read as. -/
def reread : Number → Number
  | .integer n => .integer n
  | .double d => .double d.reread

end Number

namespace Json

/-! ### Reading between tokens -/

/-- The tokens that have been read when the text ends here or a mark follows, last one
    first; none in the middle of a quoted text. -/
def Lexer.settled? (l : Lexer) : Option (List Token) :=
  match l.scan with
  | .between => some l.tokens
  | .word done => (Token.ofWord? done.reverse).map (· :: l.tokens)
  | _ => none

theorem Lexer.finish_eq (l : Lexer) : l.finish = l.settled?.map List.reverse := by
  obtain ⟨scan, tokens⟩ := l
  cases scan with
  | word done =>
    simp only [finish, settled?, Option.map_map]
    rfl
  | _ => rfl

theorem Lexer.stepBetween_punctuation {c : Char} {t : Token}
    (hc : Token.punctuation? c = some t) (tokens : List Token) :
    stepBetween tokens c = ⟨.between, t :: tokens⟩ := by
  unfold Token.punctuation? at hc
  repeat' split at hc
  all_goals cases hc <;> subst_vars <;> rfl

/-- A mark closes a word that is still open. -/
theorem Lexer.step_punctuation {l : Lexer} {tokens : List Token} {c : Char} {t : Token}
    (h : l.settled? = some tokens) (hc : Token.punctuation? c = some t) :
    l.step c = some ⟨.between, t :: tokens⟩ := by
  obtain ⟨scan, before⟩ := l
  cases scan with
  | between =>
    cases h
    exact congrArg some (stepBetween_punctuation hc before)
  | word done =>
    have hends : endsWord c = true := by simp [endsWord, hc]
    simp only [settled?] at h
    obtain ⟨t', ht', rfl⟩ := Option.map_eq_some_iff.mp h
    simp only [step, hends, if_true, ht', Option.map_some, stepBetween_punctuation hc]
  | _ => cases h

/-- A text spells tokens, up to a last word that may go on. -/
def Spells (cs : List Char) (tokens : List Token) : Prop :=
  ∀ before, ∃ l : Lexer, cs.foldlM Lexer.step ⟨.between, before⟩ = some l ∧
    l.settled? = some (tokens.reverse ++ before)

/-- A text spells tokens, and what follows it is read on its own. -/
def Closes (cs : List Char) (tokens : List Token) : Prop :=
  ∀ before, cs.foldlM Lexer.step ⟨.between, before⟩ = some ⟨.between, tokens.reverse ++ before⟩

section

variable {cs ds : List Char} {ts us : List Token}

theorem Closes.spells (h : Closes cs ts) : Spells cs ts :=
  fun before => ⟨_, h before, rfl⟩

theorem Closes.append_spells (h : Closes cs ts) (h' : Spells ds us) :
    Spells (cs ++ ds) (ts ++ us) := by
  intro before
  obtain ⟨l, hl, hsettled⟩ := h' (ts.reverse ++ before)
  refine ⟨l, ?_, ?_⟩
  · rw [List.foldlM_append, h before]
    exact hl
  · rw [hsettled, List.reverse_append, List.append_assoc]

theorem Spells.close {c : Char} {t : Token} (h : Spells cs ts)
    (hc : Token.punctuation? c = some t) : Closes (cs ++ [c]) (ts ++ [t]) := by
  intro before
  obtain ⟨l, hl, hsettled⟩ := h before
  rw [List.foldlM_append, hl, List.reverse_append]
  simp only [bind, Option.bind_some, List.foldlM_cons, List.foldlM_nil,
    Lexer.step_punctuation hsettled hc]
  rfl

theorem Spells.nil : Spells [] [] := fun before => ⟨⟨.between, before⟩, rfl, rfl⟩

/-- Texts with commas between them spell their tokens with commas between them. -/
theorem spells_intercalate {css : List (List Char)} {tss : List (List Token)}
    (h : List.Forall₂ Spells css tss) :
    Spells ([','].intercalate css) ([Token.comma].intercalate tss) := by
  induction h with
  | nil => exact Spells.nil
  | cons hhead hrest ih =>
    cases hrest with
    | nil => simpa using hhead
    | cons hsecond hrest =>
      rw [List.intercalate_cons_cons, List.intercalate_cons_cons]
      exact (hhead.close rfl).append_spells ih

/-! ### Words -/

theorem stepBetween_of_not_endsWord {c : Char} (h : Lexer.endsWord c = false)
    (tokens : List Token) : Lexer.stepBetween tokens c = ⟨.word [c], tokens⟩ := by
  simp only [Lexer.endsWord, Bool.or_eq_false_iff, beq_eq_false_iff_ne,
    Option.isSome_eq_false_iff, Option.isNone_iff_eq_none] at h
  obtain ⟨⟨hspace, hquote⟩, hmark⟩ := h
  simp only [Lexer.stepBetween, hspace, hquote, hmark, Bool.false_eq_true, if_false]

theorem foldlM_word {cs : List Char} (h : ∀ c ∈ cs, Lexer.endsWord c = false)
    (done : List Char) (tokens : List Token) :
    cs.foldlM Lexer.step ⟨.word done, tokens⟩ = some ⟨.word (cs.reverse ++ done), tokens⟩ := by
  induction cs generalizing done with
  | nil => rfl
  | cons c cs ih =>
    obtain ⟨hc, hcs⟩ := List.forall_mem_cons.mp h
    have hstep : Lexer.step ⟨.word done, tokens⟩ c = some ⟨.word (c :: done), tokens⟩ := by
      simp only [Lexer.step, hc, Bool.false_eq_true, if_false]
    rw [List.foldlM_cons, hstep, List.reverse_cons, List.append_assoc]
    exact ih hcs (c :: done)

theorem spells_word {cs : List Char} {t : Token} (hne : cs ≠ [])
    (h : ∀ c ∈ cs, Lexer.endsWord c = false) (ht : Token.ofWord? cs = some t) :
    Spells cs [t] := by
  intro before
  obtain ⟨c, cs, rfl⟩ := List.exists_cons_of_ne_nil hne
  obtain ⟨hc, hcs⟩ := List.forall_mem_cons.mp h
  refine ⟨⟨.word (cs.reverse ++ [c]), before⟩, ?_, ?_⟩
  · rw [List.foldlM_cons]
    change some (Lexer.stepBetween before c) >>= _ = _
    rw [stepBetween_of_not_endsWord hc]
    exact foldlM_word hcs [c] before
  · rw [← List.reverse_cons]
    simp only [Lexer.settled?, List.reverse_reverse, ht]
    rfl

/-- No literal name is the word of a number. -/
theorem ofWord?_number {cs : List Char} {n : Number} (h : Number.ofWord? cs = some n) :
    Token.ofWord? cs = some (.number n) := by
  have hne {name : String} (hname : Number.ofWord? name.toList = none) : cs ≠ name.toList := by
    rintro rfl
    rw [hname] at h
    cases h
  have hnull : cs ≠ "null".toList := hne (by decide)
  have htrue : cs ≠ "true".toList := hne (by decide)
  have hfalse : cs ≠ "false".toList := hne (by decide)
  simp only [Token.ofWord?, hnull, htrue, hfalse, if_false, h, Option.map_some]

/-! ### Quoted texts -/

theorem hexDigit?_hexDigit : ∀ n < 16, Lexer.hexDigit? (hexDigit n) = some n := by
  decide

/-- A control character is read back from its number. -/
theorem finishUnicode_control {c : Char} (h : c.toNat < 0x20) (done : List Char) :
    Lexer.finishUnicode done none (16 * (c.toNat / 16) + c.toNat % 16) =
      some (.text (c :: done)) := by
  have hhigh : ¬ 0xD800 ≤ c.toNat := by omega
  have hlow : ¬ 0xDC00 ≤ c.toNat := by omega
  simp [Lexer.finishUnicode, Nat.div_add_mod, hhigh, hlow]

theorem foldlM_escaped (c : Char) (done : List Char) (tokens : List Token) :
    (escaped c).foldlM Lexer.step ⟨.text done, tokens⟩ = some ⟨.text (c :: done), tokens⟩ := by
  unfold escaped
  split
  · rename_i hquote
    subst hquote
    rfl
  · rename_i hquote
    split
    · rename_i hbackslash
      subst hbackslash
      rfl
    · rename_i hbackslash
      split
      · rename_i hcontrol
        have hhigh := hexDigit?_hexDigit (c.toNat / 16) (by omega)
        have hlow := hexDigit?_hexDigit (c.toNat % 16) (by omega)
        have hzero : Lexer.hexDigit? '0' = some 0 := rfl
        simp [Lexer.step, hzero, hhigh, hlow, finishUnicode_control hcontrol]
      · rename_i hcontrol
        simp [Lexer.step, hquote, hbackslash, hcontrol]

theorem closes_quoted (s : String) : Closes (quoted s).toList [.string s] := by
  have hchars (cs done : List Char) (tokens : List Token) :
      (cs.flatMap escaped).foldlM Lexer.step ⟨.text done, tokens⟩ =
        some ⟨.text (cs.reverse ++ done), tokens⟩ := by
    induction cs generalizing done with
    | nil => rfl
    | cons c cs ih =>
      rw [List.flatMap_cons, List.foldlM_append, foldlM_escaped, List.reverse_cons,
        List.append_assoc]
      exact ih (c :: done)
  intro before
  rw [quoted, String.toList_ofList, List.cons_append, List.foldlM_cons]
  change List.foldlM Lexer.step ⟨.text [], before⟩ _ = _
  rw [List.foldlM_append, hchars]
  simp [Lexer.step]

/-! ### Values -/

theorem endsWord_of_isDigit {c : Char} (h : c.isDigit = true) : Lexer.endsWord c = false := by
  have hne {x : Char} (hx : x.isDigit = false) : c ≠ x := by
    rintro rfl
    rw [hx] at h
    cases h
  simp (disch := decide) [Lexer.endsWord, isSpace, Token.punctuation?, hne]

-- `decide` would run through every character there is, so a list is asked as a whole
theorem endsWord_of_any {cs : List Char} (h : cs.any Lexer.endsWord = false) :
    ∀ c ∈ cs, Lexer.endsWord c = false := by
  intro c hc
  exact Bool.eq_false_of_not_eq_true (List.any_eq_false.mp h c hc)

/-- A number is written as one word. -/
theorem spells_numberWord {n : Number} {cs : List Char} (hword : Number.ofWord? cs = some n)
    (h : ∀ c ∈ cs, c.isDigit = true ∨ c ∈ ['-', '.', 'e']) : Spells cs [.number n] := by
  refine spells_word ?_ (fun c hc => ?_) (ofWord?_number hword)
  · rintro rfl
    cases hword
  · rcases h c hc with hdigit | hmark
    · exact endsWord_of_isDigit hdigit
    · exact endsWord_of_any rfl c hmark

theorem spells_number {n : Number} (h : n.WellFormed) :
    Spells (Json.number n).render.toList [.number n.reread] := by
  cases n with
  | integer n =>
    refine spells_numberWord (Number.ofWord?_integer h) (fun c hc => ?_)
    exact (mem_toString c hc).imp_right fun heq => by simp [heq]
  | double d => exact spells_numberWord (Double.ofWord?_render h) (Double.mem_render h)

end

mutual

/-- The value that the text of a value is read as: each double may be another one. -/
def reread : Json → Json
  | .number n => .number n.reread
  | .array items => .array (rereadItems items)
  | .object members => .object (rereadMembers members)
  | v => v

def rereadItems : List Json → List Json
  | [] => []
  | item :: rest => item.reread :: rereadItems rest

def rereadMembers : List (String × Json) → List (String × Json)
  | [] => []
  | (name, value) :: rest => (name, value.reread) :: rereadMembers rest

end

mutual

/-- The tokens that a value is written as. -/
def tokens : Json → List Token
  | .null => [.null]
  | .bool b => [.bool b]
  | .number n => [.number n]
  | .string s => [.string s]
  | .array items => .openArray :: ([.comma].intercalate (itemTokens items) ++ [.closeArray])
  | .object members =>
    .openObject :: ([.comma].intercalate (memberTokens members) ++ [.closeObject])

def itemTokens : List Json → List (List Token)
  | [] => []
  | item :: rest => item.tokens :: itemTokens rest

def memberTokens : List (String × Json) → List (List Token)
  | [] => []
  | (name, value) :: rest => (.string name :: .colon :: value.tokens) :: memberTokens rest

end

mutual

/-- **A value that is written spells the tokens of what it is read as.** -/
theorem spells_render : (v : Json) → v.WellFormed → Spells v.render.toList v.reread.tokens
  | .null, _ => spells_word (by decide) (endsWord_of_any rfl) rfl
  | .bool true, _ => spells_word (by decide) (endsWord_of_any rfl) rfl
  | .bool false, _ => spells_word (by decide) (endsWord_of_any rfl) rfl
  | .number n, h => spells_number h
  | .string s, _ => (closes_quoted s).spells
  | .array items, h => by
    have hitems := (spells_intercalate (spells_renderItems items h)).close (c := ']') rfl
    have hopen : Closes ['['] [.openArray] := Spells.nil.close rfl
    simp only [render, reread, tokens, String.toList_append, String.toList_intercalate]
    exact hopen.append_spells hitems.spells
  | .object members, h => by
    have hmembers := (spells_intercalate (spells_renderMembers members h.2)).close (c := '\x7d') rfl
    have hopen : Closes ['\x7b'] [.openObject] := Spells.nil.close rfl
    simp only [render, reread, tokens, String.toList_append, String.toList_intercalate]
    exact hopen.append_spells hmembers.spells

theorem spells_renderItems : (items : List Json) → AllWellFormed items →
    List.Forall₂ Spells ((renderItems items).map String.toList)
      (itemTokens (rereadItems items))
  | [], _ => .nil
  | item :: rest, h => .cons (spells_render item h.1) (spells_renderItems rest h.2)

theorem spells_renderMembers : (members : List (String × Json)) → MembersWellFormed members →
    List.Forall₂ Spells ((renderMembers members).map String.toList)
      (memberTokens (rereadMembers members))
  | [], _ => .nil
  | (name, value) :: rest, h => by
    have hvalue := spells_render value h.1
    have hrest := spells_renderMembers rest h.2
    have hname := (closes_quoted name).spells.close (c := ':') rfl
    have hmember := hname.append_spells hvalue
    rw [renderMembers, List.map_cons, String.toList_append, String.toList_append]
    exact .cons hmember hrest

end

theorem tokens?_render {v : Json} (h : v.WellFormed) : tokens? v.render = some v.reread.tokens := by
  obtain ⟨l, hl, hsettled⟩ := spells_render v h []
  rw [tokens?, hl, Option.bind_some, Lexer.finish_eq, hsettled, Option.map_some,
    List.append_nil, List.reverse_reverse]

end Json

end ModelCatalog
