import CellFormula.Parsing.OperatorTree
import CellFormula.Proofs.Parsing.Scan
/-! Tokens and items of a part of a text: pieces combine only with what stands right behind them,
and an identifier and a minus sign look no further than to the next token. -/
namespace CellFormula.Parsing

/-- The tokens that a mark becomes, with what is right behind it or without. -/
def Mark.tokens (mark : Mark) : List Token :=
  match mark.usage with
  | .alone token => [token]
  | .beforeEquals token combined => [token, .operator combined]
  | .doubled double assignment => [.operator double, .operator assignment]

namespace Token

theorem ofPieces_quoted (contents : List Char) (rest : List Piece) :
    ofPieces (.quoted contents :: rest) =
      (.constant (.text (String.ofList contents)) :: ·) <$> ofPieces rest := by
  rw [ofPieces]
  rfl

theorem ofPieces_constant {letters : List Char} {value : Constant}
    (h : Constant.ofWord? letters = some value) (rest : List Piece) :
    ofPieces (.word letters :: rest) = (.constant value :: ·) <$> ofPieces rest := by
  rw [ofPieces.eq_def]
  dsimp only
  rw [h]
  rfl

theorem ofPieces_signed {letters digits : List Char} {sign : Mark} {value : Constant}
    (noWord : Constant.ofWord? letters = none)
    (h : Constant.ofSignedExponent? letters sign digits = some value) (after : List Piece) :
    ofPieces (.word letters :: .mark sign :: .word digits :: after) =
      (.constant value :: ·) <$> ofPieces after := by
  rw [ofPieces.eq_def]
  dsimp only
  rw [noWord]
  dsimp only
  rw [h]
  rfl

theorem ofPieces_identifier {letters : List Char} {rest : List Piece}
    (noWord : Constant.ofWord? letters = none)
    (h : ∀ sign digits after, rest = .mark sign :: .word digits :: after →
      Constant.ofSignedExponent? letters sign digits = none) :
    ofPieces (.word letters :: rest) =
      (.identifier (String.ofList letters) :: ·) <$> ofPieces rest := by
  rw [ofPieces.eq_def]
  dsimp only
  rw [noWord]
  split
  · contradiction
  · rename_i sign digits after _
    rw [h sign digits after rfl]
    rfl
  · rfl

theorem ofPieces_alone {mark : Mark} {token : Token} (h : mark.usage = .alone token)
    (rest : List Piece) : ofPieces (.mark mark :: rest) = (token :: ·) <$> ofPieces rest := by
  rw [ofPieces.eq_def]
  dsimp only
  rw [h]
  rfl

theorem ofPieces_combined {mark : Mark} {token : Token} {combined : Operator}
    (h : mark.usage = .beforeEquals token combined) (after : List Piece) :
    ofPieces (.mark mark :: .mark .equals :: after) =
      (.operator combined :: ·) <$> ofPieces after := by
  rw [ofPieces.eq_def]
  dsimp only
  rw [h]
  rfl

theorem ofPieces_beforeEquals {mark : Mark} {token : Token} {combined : Operator}
    (h : mark.usage = .beforeEquals token combined) {rest : List Piece}
    (notEquals : ∀ after, rest ≠ .mark .equals :: after) :
    ofPieces (.mark mark :: rest) = (token :: ·) <$> ofPieces rest := by
  rw [ofPieces.eq_def]
  dsimp only
  rw [h]
  split
  · contradiction
  · rename_i after _
    exact absurd rfl (notEquals after)
  · rename_i same _
    cases same
    rfl
  all_goals contradiction

theorem ofPieces_doubled {mark : Mark} {double assignment : Operator}
    (h : mark.usage = .doubled double assignment) {after : List Piece}
    (notEquals : ∀ rest, after ≠ .mark .equals :: rest) :
    ofPieces (.mark mark :: .mark mark :: after) = (.operator double :: ·) <$> ofPieces after := by
  rw [ofPieces.eq_def]
  simp only [h, if_true]
  rfl

theorem ofPieces_assigned {mark : Mark} {double assignment : Operator}
    (h : mark.usage = .doubled double assignment) (after : List Piece) :
    ofPieces (.mark mark :: .mark mark :: .mark .equals :: after) =
      (.operator assignment :: ·) <$> ofPieces after := by
  rw [ofPieces.eq_def]
  simp only [h, if_true]
  rfl

private theorem ofPieces_stray {mark : Mark} {double assignment : Operator}
    (h : mark.usage = .doubled double assignment) {rest : List Piece}
    (notTwice : ∀ after, rest ≠ .mark mark :: after) :
    ofPieces (.mark mark :: rest) = .error (.strayMark mark rest.head?) := by
  rw [ofPieces.eq_def]
  dsimp only
  rw [h]
  split
  · contradiction
  · contradiction
  · contradiction
  · rename_i second after same
    exact if_neg (by rintro rfl; exact notTwice _ rfl)
  · rename_i second after same _
    exact if_neg (by rintro rfl; exact notTwice _ rfl)
  · rfl

/-- The first token of pieces that start with no blank, and the pieces behind it. -/
inductive First : List Piece → Token → List Piece → Prop
  | quoted (contents : List Char) (after : List Piece) :
      First (.quoted contents :: after) (.constant (.text (String.ofList contents))) after
  | constant {letters : List Char} {value : Constant} {after : List Piece}
      (word : Constant.ofWord? letters = some value) :
      First (.word letters :: after) (.constant value) after
  | signed {letters digits : List Char} {sign : Mark} {value : Constant} {after : List Piece}
      (noWord : Constant.ofWord? letters = none)
      (exponent : Constant.ofSignedExponent? letters sign digits = some value) :
      First (.word letters :: .mark sign :: .word digits :: after) (.constant value) after
  | identifier {letters : List Char} {after : List Piece}
      (noWord : Constant.ofWord? letters = none)
      (noExponent : ∀ sign digits others, after = .mark sign :: .word digits :: others →
        Constant.ofSignedExponent? letters sign digits = none) :
      First (.word letters :: after) (.identifier (String.ofList letters)) after
  | alone {mark : Mark} {token : Token} {after : List Piece} (usage : mark.usage = .alone token) :
      First (.mark mark :: after) token after
  | combined {mark : Mark} {token : Token} {combined : Operator} {after : List Piece}
      (usage : mark.usage = .beforeEquals token combined) :
      First (.mark mark :: .mark .equals :: after) (.operator combined) after
  | beforeEquals {mark : Mark} {token : Token} {combined : Operator} {after : List Piece}
      (usage : mark.usage = .beforeEquals token combined)
      (notEquals : ∀ others, after ≠ .mark .equals :: others) :
      First (.mark mark :: after) token after
  | assigned {mark : Mark} {double assignment : Operator} {after : List Piece}
      (usage : mark.usage = .doubled double assignment) :
      First (.mark mark :: .mark mark :: .mark .equals :: after) (.operator assignment) after
  | doubled {mark : Mark} {double assignment : Operator} {after : List Piece}
      (usage : mark.usage = .doubled double assignment)
      (notEquals : ∀ others, after ≠ .mark .equals :: others) :
      First (.mark mark :: .mark mark :: after) (.operator double) after

theorem First.ofPieces {pieces after : List Piece} {token : Token} (h : First pieces token after) :
    ofPieces pieces = (token :: ·) <$> ofPieces after := by
  cases h with
  | quoted contents => exact ofPieces_quoted contents after
  | constant word => exact ofPieces_constant word after
  | signed noWord exponent => exact ofPieces_signed noWord exponent after
  | identifier noWord noExponent => exact ofPieces_identifier noWord noExponent
  | alone usage => exact ofPieces_alone usage after
  | combined usage => exact ofPieces_combined usage after
  | beforeEquals usage notEquals => exact ofPieces_beforeEquals usage notEquals
  | assigned usage => exact ofPieces_assigned usage after
  | doubled usage notEquals => exact ofPieces_doubled usage notEquals

theorem First.length_lt {pieces after : List Piece} {token : Token}
    (h : First pieces token after) : after.length < pieces.length := by
  cases h <;> simp only [List.length_cons] <;> omega

private theorem exists_first_word (letters : List Char) (rest : List Piece) :
    ∃ token after, First (.word letters :: rest) token after := by
  cases word : Constant.ofWord? letters with
  | some value => exact ⟨_, _, .constant word⟩
  | none =>
    by_cases signed : ∃ sign digits after value, rest = .mark sign :: .word digits :: after ∧
        Constant.ofSignedExponent? letters sign digits = some value
    · obtain ⟨sign, digits, after, value, rfl, exponent⟩ := signed
      exact ⟨_, _, .signed word exponent⟩
    · refine ⟨_, _, .identifier word fun sign digits after same => ?_⟩
      refine Option.eq_none_iff_forall_ne_some.2 fun value exponent => signed ?_
      exact ⟨sign, digits, after, value, same, exponent⟩

private theorem exists_first_mark {mark : Mark} {rest : List Piece} {tokens : List Token}
    (h : ofPieces (.mark mark :: rest) = .ok tokens) :
    ∃ token after, First (.mark mark :: rest) token after := by
  cases usage : mark.usage with
  | alone token => exact ⟨_, _, .alone usage⟩
  | beforeEquals token combined =>
    by_cases equals : ∃ after, rest = .mark .equals :: after
    · obtain ⟨after, rfl⟩ := equals
      exact ⟨_, _, .combined usage⟩
    · exact ⟨_, _, .beforeEquals usage fun after same => equals ⟨after, same⟩⟩
  | doubled double assignment =>
    by_cases twice : ∃ after, rest = .mark mark :: after
    · obtain ⟨after, rfl⟩ := twice
      by_cases equals : ∃ others, after = .mark .equals :: others
      · obtain ⟨others, rfl⟩ := equals
        exact ⟨_, _, .assigned usage⟩
      · exact ⟨_, _, .doubled usage fun others same => equals ⟨others, same⟩⟩
    · rw [ofPieces_stray usage fun after same => twice ⟨after, same⟩] at h
      cases h

private theorem exists_first {pieces : List Piece} {tokens : List Token}
    (h : ofPieces pieces = .ok tokens) :
    pieces = [] ∨ (∃ after, pieces = .blank :: after) ∨
      ∃ token after, First pieces token after := by
  cases pieces with
  | nil => exact .inl rfl
  | cons piece rest =>
    cases piece with
    | blank => exact .inr (.inl ⟨rest, rfl⟩)
    | quoted contents => exact .inr (.inr ⟨_, _, .quoted contents rest⟩)
    | word letters => exact .inr (.inr (exists_first_word letters rest))
    | mark mark => exact .inr (.inr (exists_first_mark h))

inductive Makes : List Piece → List Token → Prop
  | nil : Makes [] []
  | blank {after : List Piece} {tokens : List Token} (h : Makes after tokens) :
      Makes (.blank :: after) tokens
  | first {pieces after : List Piece} {token : Token} {tokens : List Token}
      (first : First pieces token after) (h : Makes after tokens) : Makes pieces (token :: tokens)

theorem makes_of_ofPieces {pieces : List Piece} {tokens : List Token}
    (h : ofPieces pieces = .ok tokens) : Makes pieces tokens := by
  rcases exists_first h with rfl | ⟨after, same⟩ | ⟨token, after, first⟩
  · cases h
    exact .nil
  · rw [same] at h ⊢
    exact .blank (makes_of_ofPieces h)
  · have shorter := first.length_lt
    rw [first.ofPieces, map_eq_pure_bind] at h
    obtain ⟨others, made, same⟩ := of_bind_ok h
    cases same
    exact .first first (makes_of_ofPieces made)
termination_by pieces.length
decreasing_by
  · exact same ▸ Nat.lt_succ_self _
  · exact shorter

theorem Makes.ofPieces {pieces : List Piece} {tokens : List Token} (h : Makes pieces tokens) :
    ofPieces pieces = .ok tokens := by
  induction h with
  | nil => rfl
  | blank _ ih =>
    rw [Token.ofPieces]
    exact ih
  | first first _ ih =>
    rw [first.ofPieces, ih]
    rfl

/-- Whether no piece in front of these pieces can combine with them. -/
def separates : List Piece → Bool
  | .blank :: _ | .mark .closing :: _ | .mark .comma :: _ => true
  | _ => false

theorem ofSignedExponent?_eq_none {sign : Mark} (plus : sign ≠ .plus) (minus : sign ≠ .minus)
    (letters digits : List Char) : Constant.ofSignedExponent? letters sign digits = none := by
  simp [Constant.ofSignedExponent?, plus, minus]

private theorem append_ne_equals {pieces rest : List Piece} (separated : separates rest = true)
    (h : ∀ after, pieces ≠ .mark .equals :: after) (after : List Piece) :
    pieces ++ rest ≠ .mark .equals :: after := by
  intro same
  cases pieces with
  | nil =>
    rw [List.nil_append] at same
    rw [same] at separated
    cases separated
  | cons piece others => exact h others (by rw [(List.cons.inj same).1])

private theorem append_no_exponent {pieces rest : List Piece} {letters : List Char}
    (separated : separates rest = true)
    (h : ∀ sign digits after, pieces = .mark sign :: .word digits :: after →
      Constant.ofSignedExponent? letters sign digits = none)
    (sign : Mark) (digits : List Char) (after : List Piece)
    (same : pieces ++ rest = .mark sign :: .word digits :: after) :
    Constant.ofSignedExponent? letters sign digits = none := by
  cases pieces with
  | nil =>
    -- the sign is the mark that separates
    rw [List.nil_append] at same
    rw [same] at separated
    apply ofSignedExponent?_eq_none
    · rintro rfl
      cases separated
    · rintro rfl
      cases separated
  | cons first others =>
    obtain ⟨rfl, tail⟩ := List.cons.inj same
    cases others with
    | nil =>
      have opens : rest = .word digits :: after := tail
      rw [opens] at separated
      cases separated
    | cons second others =>
      obtain ⟨rfl, -⟩ := List.cons.inj tail
      exact h sign digits others rfl

/-- The first token looks no further than to pieces that separate. -/
theorem First.append {pieces after rest : List Piece} {token : Token} (h : First pieces token after)
    (separated : separates rest = true) : First (pieces ++ rest) token (after ++ rest) := by
  cases h with
  | quoted contents => exact .quoted contents _
  | constant word => exact .constant word
  | signed noWord exponent => exact .signed noWord exponent
  | identifier noWord noExponent =>
    exact .identifier noWord (append_no_exponent separated noExponent)
  | alone usage => exact .alone usage
  | combined usage => exact .combined usage
  | beforeEquals usage notEquals =>
    exact .beforeEquals usage (append_ne_equals separated notEquals)
  | assigned usage => exact .assigned usage
  | doubled usage notEquals => exact .doubled usage (append_ne_equals separated notEquals)

theorem ofPieces_append {pieces rest : List Piece} {tokens others : List Token}
    (h : ofPieces pieces = .ok tokens) (separated : separates rest = true)
    (behind : ofPieces rest = .ok others) :
    ofPieces (pieces ++ rest) = .ok (tokens ++ others) := by
  apply Makes.ofPieces
  have makes := makes_of_ofPieces h
  clear h
  induction makes with
  | nil => exact makes_of_ofPieces behind
  | blank _ ih => exact .blank ih
  | first first _ ih => exact .first (first.append separated) ih

inductive ComesFrom (pieces : List Piece) : Token → Prop
  | quoted {contents : List Char} :
      ComesFrom pieces (.constant (.text (String.ofList contents)))
  | word {letters : List Char} {value : Constant}
      (spelled : Constant.ofWord? letters = some value) : ComesFrom pieces (.constant value)
  | signed {letters digits : List Char} {sign : Mark} {value : Constant}
      (spelled : Constant.ofSignedExponent? letters sign digits = some value) :
      ComesFrom pieces (.constant value)
  | identifier {letters : List Char} (mem : .word letters ∈ pieces)
      (noConstant : Constant.ofWord? letters = none) :
      ComesFrom pieces (.identifier (String.ofList letters))
  | mark {mark : Mark} {token : Token} (mem : token ∈ mark.tokens) : ComesFrom pieces token

theorem ComesFrom.mono {pieces others : List Piece} {token : Token} (h : ComesFrom pieces token)
    (sub : pieces ⊆ others) : ComesFrom others token := by
  cases h with
  | quoted => exact .quoted
  | word spelled => exact .word spelled
  | signed spelled => exact .signed spelled
  | identifier mem noConstant => exact .identifier (sub mem) noConstant
  | mark mem => exact .mark mem

theorem First.subset {pieces after : List Piece} {token : Token} (h : First pieces token after) :
    after ⊆ pieces := by
  cases h <;> grind

theorem First.comesFrom {pieces after : List Piece} {token : Token}
    (h : First pieces token after) : ComesFrom pieces token := by
  cases h with
  | quoted contents => exact .quoted
  | constant word => exact .word word
  | signed noWord exponent => exact .signed exponent
  | identifier noWord noExponent => exact .identifier List.mem_cons_self noWord
  | @alone mark _ _ usage => exact @ComesFrom.mark _ mark _ (by simp [Mark.tokens, usage])
  | @combined mark _ _ _ usage => exact @ComesFrom.mark _ mark _ (by simp [Mark.tokens, usage])
  | @beforeEquals mark _ _ _ usage _ =>
    exact @ComesFrom.mark _ mark _ (by simp [Mark.tokens, usage])
  | @assigned mark _ _ _ usage => exact @ComesFrom.mark _ mark _ (by simp [Mark.tokens, usage])
  | @doubled mark _ _ _ usage _ => exact @ComesFrom.mark _ mark _ (by simp [Mark.tokens, usage])

theorem comesFrom_ofPieces {pieces : List Piece} {tokens : List Token}
    (h : ofPieces pieces = .ok tokens) : ∀ token ∈ tokens, ComesFrom pieces token := by
  have makes := makes_of_ofPieces h
  clear h
  induction makes with
  | nil => exact List.forall_mem_nil _
  | blank _ ih => exact fun token mem => (ih token mem).mono (List.subset_cons_self _ _)
  | first first _ ih =>
    exact List.forall_mem_cons.2
      ⟨first.comesFrom, fun token mem => (ih token mem).mono first.subset⟩

end Token

def Lexes (glyphs : List Glyph) (tokens : List Token) (rest : List Glyph) : Prop :=
  ∀ ⦃others⦄, Token.ofPieces (Piece.ofGlyphs rest) = .ok others →
    Token.ofPieces (Piece.ofGlyphs (glyphs ++ rest)) = .ok (tokens ++ others)

def startsEquals : List Glyph → Bool
  | .mark .equals :: _ => true
  | _ => false

def startsSeparated : List Glyph → Bool
  | .blank :: _ | .mark .closing :: _ | .mark .comma :: _ => true
  | _ => false

theorem startsWord_of_separated {glyphs : List Glyph} (h : startsSeparated glyphs = true) :
    Piece.startsWord glyphs = false := by
  unfold startsSeparated at h
  split at h
  · rfl
  · rfl
  · rfl
  · cases h

theorem no_sign_of_separated {glyphs : List Glyph} (h : startsSeparated glyphs = true) {mark : Mark}
    {after : List Piece} (same : Piece.ofGlyphs glyphs = .mark mark :: after) :
    mark ≠ .plus ∧ mark ≠ .minus := by
  unfold startsSeparated at h
  split at h
  · cases (List.cons.inj same).1
  · cases (List.cons.inj same).1
    decide
  · cases (List.cons.inj same).1
    decide
  · cases h

private theorem ofGlyphs_ne_equals {glyphs : List Glyph} (h : startsEquals glyphs = false)
    (after : List Piece) : Piece.ofGlyphs glyphs ≠ .mark .equals :: after := by
  cases glyphs with
  | nil => exact (List.cons_ne_nil _ _).symm
  | cons glyph rest =>
    cases glyph with
    | letter c =>
      obtain ⟨letters, others, word⟩ := Piece.ofGlyphs_letter_cons c rest
      rw [word]
      simp
    | mark m =>
      rintro same
      cases (List.cons.inj same).1
      cases h
    | blank => simp [Piece.ofGlyphs, Piece.join]
    | quoted contents => simp [Piece.ofGlyphs, Piece.join]

namespace Lexes

theorem append {first last rest : List Glyph} {firsts lasts : List Token}
    (h : Lexes first firsts (last ++ rest)) (h' : Lexes last lasts rest) :
    Lexes (first ++ last) (firsts ++ lasts) rest := by
  intro others made
  rw [List.append_assoc, List.append_assoc]
  exact h (h' made)

theorem nil (rest : List Glyph) : Lexes [] [] rest := fun _ => id

theorem blanks {glyphs : List Glyph} (h : ∀ glyph ∈ glyphs, glyph = .blank)
    (rest : List Glyph) : Lexes glyphs [] rest := by
  induction glyphs with
  | nil => exact nil rest
  | cons glyph glyphs ih =>
    obtain rfl := h glyph List.mem_cons_self
    exact fun _ made => ih (fun glyph mem => h glyph (List.mem_cons_of_mem _ mem)) made

theorem alone {mark : Mark} {token : Token} (usage : mark.usage = .alone token)
    (rest : List Glyph) : Lexes [.mark mark] [token] rest := by
  intro others made
  change Token.ofPieces (.mark mark :: Piece.ofGlyphs rest) = _
  rw [Token.ofPieces_alone usage, made]
  rfl

theorem beforeEquals {mark : Mark} {token : Token} {combined : Operator}
    (usage : mark.usage = .beforeEquals token combined) {rest : List Glyph}
    (h : startsEquals rest = false) : Lexes [.mark mark] [token] rest := by
  intro others made
  change Token.ofPieces (.mark mark :: Piece.ofGlyphs rest) = _
  rw [Token.ofPieces_beforeEquals usage (ofGlyphs_ne_equals h), made]
  rfl

theorem combined {mark : Mark} {token : Token} {combined : Operator}
    (usage : mark.usage = .beforeEquals token combined) (rest : List Glyph) :
    Lexes [.mark mark, .mark .equals] [.operator combined] rest := by
  intro others made
  change Token.ofPieces (.mark mark :: .mark .equals :: Piece.ofGlyphs rest) = _
  rw [Token.ofPieces_combined usage, made]
  rfl

theorem constant {letters : List Char} {value : Constant} (nonempty : letters ≠ [])
    (word : Constant.ofWord? letters = some value) {rest : List Glyph}
    (h : Piece.startsWord rest = false) :
    Lexes (letters.map .letter) [.constant value] rest := by
  intro others made
  rw [Piece.ofGlyphs_append _ h, Piece.ofGlyphs_letters nonempty, List.singleton_append,
    Token.ofPieces_constant word, made]
  rfl

theorem signed {letters digits : List Char} {sign : Mark} {value : Constant}
    (nonempty : letters ≠ []) (digits_nonempty : digits ≠ [])
    (noWord : Constant.ofWord? letters = none)
    (exponent : Constant.ofSignedExponent? letters sign digits = some value) {rest : List Glyph}
    (h : Piece.startsWord rest = false) :
    Lexes (letters.map .letter ++ .mark sign :: digits.map .letter) [.constant value] rest := by
  intro others made
  have behind : Piece.startsWord (.mark sign :: digits.map .letter ++ rest) = false := rfl
  rw [List.append_assoc, Piece.ofGlyphs_append _ behind, Piece.ofGlyphs_letters nonempty]
  change Token.ofPieces (.word letters :: .mark sign :: Piece.ofGlyphs (_ ++ rest)) = _
  rw [Piece.ofGlyphs_append _ h, Piece.ofGlyphs_letters digits_nonempty, List.singleton_append,
    Token.ofPieces_signed noWord exponent, made]
  rfl

theorem identifier {letters : List Char} (nonempty : letters ≠ [])
    (noWord : Constant.ofWord? letters = none) {rest : List Glyph}
    (h : Piece.startsWord rest = false)
    (noExponent : ∀ sign digits after, Piece.ofGlyphs rest = .mark sign :: .word digits :: after →
      Constant.ofSignedExponent? letters sign digits = none) :
    Lexes (letters.map .letter) [.identifier (String.ofList letters)] rest := by
  intro others made
  rw [Piece.ofGlyphs_append _ h, Piece.ofGlyphs_letters nonempty, List.singleton_append,
    Token.ofPieces_identifier noWord noExponent, made]
  rfl

theorem text {glyphs : List Glyph} {tokens : List Token}
    (h : Token.ofPieces (Piece.ofGlyphs glyphs) = .ok tokens) {rest : List Glyph}
    (separated : startsSeparated rest = true) : Lexes glyphs tokens rest := by
  intro others made
  have separates : Token.separates (Piece.ofGlyphs rest) = true := by
    unfold startsSeparated at separated
    split at separated
    · rfl
    · rfl
    · rfl
    · cases separated
  rw [Piece.ofGlyphs_append _ (startsWord_of_separated separated)]
  exact Token.ofPieces_append h separates made

end Lexes

structure Gap where
  chars : List Char
  blank : ∀ c ∈ chars, Text.isBlank c = true

namespace Gap

def glyphs (gap : Gap) : List Glyph := gap.chars.map fun _ => .blank

private theorem isBlank_char (mark : Mark) : Text.isBlank mark.char = false := by
  cases mark <;> decide

private theorem ofChar_of_isBlank {c : Char} (h : Text.isBlank c = true) :
    Glyph.ofChar c = .blank := by
  unfold Glyph.ofChar
  cases found : Mark.ofChar? c with
  | none => rw [if_pos h]
  | some mark =>
    have same : mark.char = c := by simpa using List.find?_some found
    rw [← same, isBlank_char] at h
    cases h

theorem scans (gap : Gap) : Scans gap.chars gap.glyphs := by
  have plain : ∀ c ∈ gap.chars, c ≠ '"' ∧ c ≠ '/' := by
    intro c mem
    have blank := gap.blank c mem
    constructor
    · rintro rfl
      cases blank
    · rintro rfl
      cases blank
  have glyphs : gap.chars.map Glyph.ofChar = gap.glyphs :=
    List.map_congr_left fun c mem => ofChar_of_isBlank (gap.blank c mem)
  rw [← glyphs]
  exact Scans.map plain

private theorem eq_blank {gap : Gap} : ∀ glyph ∈ gap.glyphs, glyph = .blank := by
  intro glyph mem
  obtain ⟨c, -, rfl⟩ := List.mem_map.1 mem
  rfl

theorem lexes (gap : Gap) (rest : List Glyph) : Lexes gap.glyphs [] rest :=
  Lexes.blanks eq_blank rest

end Gap

namespace Item

def startsClosed : List Token → Bool
  | .closing :: _ | .operator .tuple :: _ => true
  | _ => false

private theorem ofIdentifier_closed (name : String) {rest : List Token}
    (h : startsClosed rest = true) :
    ofIdentifier name rest.head? = .operator (.reference name) := by
  unfold startsClosed at h
  split at h
  · rfl
  · rfl
  · cases h

theorem ofTokens_append {rest : List Token} (h : startsClosed rest = true)
    (behindOperand : Bool) (tokens : List Token) :
    ofTokens behindOperand (tokens ++ rest) =
      ofTokens behindOperand tokens ++ ofTokens true rest := by
  induction tokens generalizing behindOperand with
  | nil =>
    unfold startsClosed at h
    split at h
    · rfl
    · rfl
    · cases h
  | cons token tokens ih =>
    cases token with
    | constant value => exact congrArg _ (ih true)
    | identifier name =>
      have same : ofIdentifier name (tokens ++ rest).head? = ofIdentifier name tokens.head? := by
        cases tokens with
        | nil => exact ofIdentifier_closed name h
        | cons next others => rfl
      rw [List.cons_append, ofTokens, ofTokens, same, ih true, List.cons_append]
    | opening => exact congrArg _ (ih false)
    | closing => exact congrArg _ (ih true)
    | minus => exact congrArg _ (ih false)
    | operator op => exact congrArg _ (ih false)

end Item

end CellFormula.Parsing
