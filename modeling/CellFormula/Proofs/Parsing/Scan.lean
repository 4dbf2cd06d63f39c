import CellFormula.Parsing.Piece
/-! The scan of a text is local: what a part of it contributes to the glyphs and pieces depends on
its neighbours only where comments or letters meet. -/
namespace CellFormula.Parsing

theorem of_bind_ok {first : Except ε α} {next : α → Except ε β} {value : β}
    (h : first >>= next = .ok value) : ∃ inner, first = .ok inner ∧ next inner = .ok value := by
  cases first with
  | error error => cases h
  | ok inner => exact ⟨inner, rfl, h⟩

namespace Mode

private theorem glyphs_cons {mode next : Mode} {c : Char} {settled rest : List Glyph}
    {chars : List Char}
    (step : mode.step c = .ok (next, settled)) (scanned : next.glyphs chars = .ok rest) :
    mode.glyphs (c :: chars) = .ok (settled ++ rest) := by
  rw [glyphs, step]
  simp only [bind, Except.bind, scanned]
  rfl

theorem of_glyphs_cons {mode : Mode} {c : Char} {chars : List Char} {all : List Glyph}
    (h : mode.glyphs (c :: chars) = .ok all) :
    ∃ next settled rest, mode.step c = .ok (next, settled) ∧ next.glyphs chars = .ok rest ∧
      all = settled ++ rest := by
  rw [glyphs] at h
  obtain ⟨⟨next, settled⟩, step, scan⟩ := of_bind_ok h
  obtain ⟨rest, scanned, same⟩ := of_bind_ok scan
  cases same
  exact ⟨next, settled, rest, step, scanned, rfl⟩

private theorem step_plain {c : Char} (quote : c ≠ '"') (slash : c ≠ '/') :
    plain.step c = .ok (.plain, [Glyph.ofChar c]) := by
  simp only [step, readPlain, if_neg quote, if_neg slash]

end Mode

/-- The glyphs that characters contribute in front of any text. -/
def Scans (chars : List Char) (glyphs : List Glyph) : Prop :=
  ∀ ⦃behind rest⦄, Mode.plain.glyphs behind = .ok rest →
    Mode.plain.glyphs (chars ++ behind) = .ok (glyphs ++ rest)

namespace Scans

theorem nil : Scans [] [] := fun _ _ => id

theorem append {first last : List Char} {firsts lasts : List Glyph} (h : Scans first firsts)
    (h' : Scans last lasts) : Scans (first ++ last) (firsts ++ lasts) := by
  intro behind rest scanned
  rw [List.append_assoc, List.append_assoc]
  exact h (h' scanned)

theorem char {c : Char} (quote : c ≠ '"') (slash : c ≠ '/') : Scans [c] [Glyph.ofChar c] :=
  fun _ _ scanned => Mode.glyphs_cons (Mode.step_plain quote slash) scanned

theorem map {chars : List Char} (h : ∀ c ∈ chars, c ≠ '"' ∧ c ≠ '/') :
    Scans chars (chars.map Glyph.ofChar) := by
  induction chars with
  | nil => exact nil
  | cons c rest ih =>
    obtain ⟨quote, slash⟩ := h c List.mem_cons_self
    exact append (char quote slash) (ih fun c mem => h c (List.mem_cons_of_mem _ mem))

theorem slash {c : Char} {chars : List Char} {glyphs : List Glyph} (h : Scans (c :: chars) glyphs)
    (slash : c ≠ '/') (star : c ≠ '*') :
    Scans ('/' :: c :: chars) (.mark .slash :: glyphs) := by
  intro behind rest scanned
  obtain ⟨next, settled, others, step, scanned, same⟩ := Mode.of_glyphs_cons (h scanned)
  have plain : Mode.readPlain c = (next, settled) := Except.ok.inj step
  have step : Mode.slash.step c = .ok (next, .mark .slash :: settled) := by
    rw [Mode.step, if_neg slash, if_neg star, plain]
  have scanned := Mode.glyphs_cons step scanned
  have opens : Mode.plain.step '/' = .ok (.slash, []) := rfl
  change Mode.plain.glyphs ('/' :: (c :: chars ++ behind)) = .ok (.mark .slash :: (glyphs ++ rest))
  rw [same]
  exact Mode.glyphs_cons opens scanned

end Scans

/-- A newline ends a trailing comment and leaves a blank otherwise, so a text in front of it
contributes what it contributes by itself and perhaps a blank. -/
theorem Mode.glyphs_newline {mode : Mode} {chars : List Char} {glyphs : List Glyph}
    (h : mode.glyphs chars = .ok glyphs) :
    ∃ blanks, (∀ glyph ∈ blanks, glyph = .blank) ∧
      ∀ {behind rest}, Mode.plain.glyphs behind = .ok rest →
        mode.glyphs (chars ++ '\n' :: behind) = .ok (glyphs ++ blanks ++ rest) := by
  induction chars generalizing mode glyphs with
  | nil =>
    have newline : Glyph.ofChar '\n' = .blank := by decide
    cases mode with
    | plain =>
      cases h
      refine ⟨[.blank], by simp, ?_⟩
      intro behind rest scanned
      exact glyphs_cons rfl scanned
    | slash =>
      cases h
      refine ⟨[.blank], by simp, ?_⟩
      intro behind rest scanned
      exact glyphs_cons rfl scanned
    | lineComment =>
      cases h
      refine ⟨[], by simp, ?_⟩
      intro behind rest scanned
      exact glyphs_cons rfl scanned
    | blockComment => cases h
    | blockStar => cases h
    | quoted contents => cases h
    | escaped contents => cases h
  | cons c chars ih =>
    obtain ⟨next, settled, others, step, scanned, rfl⟩ := of_glyphs_cons h
    obtain ⟨blanks, areBlank, continues⟩ := ih scanned
    refine ⟨blanks, areBlank, ?_⟩
    intro behind rest scanned
    rw [List.append_assoc settled, List.append_assoc settled]
    exact glyphs_cons step (continues scanned)

namespace Piece

def startsWord : List Glyph → Bool
  | .letter _ :: _ => true
  | _ => false

theorem ofGlyphs_letter_cons (c : Char) (rest : List Glyph) :
    ∃ letters after, ofGlyphs (.letter c :: rest) = .word letters :: after := by
  change ∃ letters after, join (.letter c) (ofGlyphs rest) = .word letters :: after
  cases ofGlyphs rest with
  | nil => exact ⟨[c], [], rfl⟩
  | cons piece after =>
    cases piece with
    | word letters => exact ⟨c :: letters, after, rfl⟩
    | mark m => exact ⟨[c], _, rfl⟩
    | blank => exact ⟨[c], _, rfl⟩
    | quoted contents => exact ⟨[c], _, rfl⟩

private theorem ofGlyphs_ne_word {glyphs : List Glyph} (h : startsWord glyphs = false)
    (letters : List Char) (after : List Piece) : ofGlyphs glyphs ≠ .word letters :: after := by
  cases glyphs with
  | nil => exact List.cons_ne_nil _ _ |>.symm
  | cons glyph rest =>
    cases glyph with
    | letter c => cases h
    | mark m => simp [ofGlyphs, join]
    | blank => simp [ofGlyphs, join]
    | quoted contents => simp [ofGlyphs, join]

private theorem join_append {glyph : Glyph} {pieces rest : List Piece}
    (h : ∀ letters after, rest ≠ .word letters :: after) :
    join glyph (pieces ++ rest) = join glyph pieces ++ rest := by
  cases glyph with
  | letter c =>
    cases pieces with
    | nil =>
      cases rest with
      | nil => rfl
      | cons piece after =>
        cases piece with
        | word letters => exact absurd rfl (h letters after)
        | mark m => rfl
        | blank => rfl
        | quoted contents => rfl
    | cons piece after => cases piece <;> rfl
  | mark m => rfl
  | blank => rfl
  | quoted contents => rfl

theorem ofGlyphs_append (front : List Glyph) {rest : List Glyph} (h : startsWord rest = false) :
    ofGlyphs (front ++ rest) = ofGlyphs front ++ ofGlyphs rest := by
  induction front with
  | nil => rfl
  | cons glyph front ih =>
    change join glyph (ofGlyphs (front ++ rest)) = join glyph (ofGlyphs front) ++ ofGlyphs rest
    rw [ih]
    exact join_append (ofGlyphs_ne_word h)

@[simp] theorem ofGlyphs_letters {letters : List Char} (nonempty : letters ≠ []) :
    ofGlyphs (letters.map .letter) = [.word letters] := by
  induction letters with
  | nil => exact absurd rfl nonempty
  | cons c rest ih =>
    cases rest with
    | nil => rfl
    | cons next after =>
      have word := ih (List.cons_ne_nil _ _)
      change join (.letter c) (ofGlyphs ((next :: after).map .letter)) = _
      rw [word]
      rfl

end Piece

end CellFormula.Parsing
