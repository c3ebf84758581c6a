import Mathlib.Data.String.Defs
import LoxLexer.Proofs.LongestMatch

namespace LoxLexer

/-- A map that leaves ASCII as it is, and keeps everything else out of it. -/
structure KeepsAscii (f : Char → Char) : Prop where
  ascii : ∀ c, c.isAscii → f c = c
  other : ∀ c, c.isAscii = false → (f c).isAscii = false

structure Respelling where
  letter : Char → Char
  gap : Text
  keeps : KeepsAscii letter
  blank : ∀ c ∈ gap, isBlank c
  oneLine : '\n' ∉ gap

def Respelling.spell (r : Respelling) (text : Text) : Text :=
  text.flatMap fun c => if c = '\n' then r.gap ++ ['\n'] else [r.letter c]

/-- A text and its respelling, taken apart character by character. -/
inductive Respelling.Spells (r : Respelling) : Text → Text → Prop
  | nil : r.Spells [] []
  | gap : isBlank d → d ≠ '\n' → r.Spells ('\n' :: a) b → r.Spells ('\n' :: a) (d :: b)
  | lineFeed : r.Spells a b → r.Spells ('\n' :: a) ('\n' :: b)
  | letter : c ≠ '\n' → r.Spells a b → r.Spells (c :: a) (r.letter c :: b)

def Shape.respell (letter : Char → Char) : Shape → Shape
  | .stray c => .stray (letter c)
  | shape => shape

variable {shape : Shape} {text after a b : Text} {c x : Char} {p : Char → Bool} {r : Respelling}

theorem Visible.isAscii (h : Visible c) : c.isAscii := by
  have bound : c.toNat ≤ '~'.toNat := h.2
  exact decide_eq_true (Nat.lt_of_le_of_lt bound (by decide))

theorem isAscii_of_isBlank (h : isBlank c) : c.isAscii := by
  rcases (isBlank_iff c).1 h with rfl | rfl | rfl | rfl <;> decide

theorem isAscii_of_ofChar? (h : (Kind.ofChar? c).isSome) : c.isAscii := by
  obtain ⟨kind, hk⟩ := Option.isSome_iff_exists.1 h
  exact (Kind.visible_of_spelling? (Kind.spelling_ofChar? hk) c List.mem_cons_self).isAscii

theorem Visible.ne_of_isBlank (h : Visible x) (hc : isBlank c) : c ≠ x := by
  rintro rfl
  simp [h.not_isBlank] at hc

namespace Respelling

theorem letter_class (r : Respelling) (ascii : ∀ c, p c → c.isAscii) (c : Char) :
    p (r.letter c) = p c := by
  have outside {d : Char} (hd : d.isAscii = false) : p d = false := by
    apply Bool.eq_false_iff.2
    intro h
    rw [ascii d h] at hd
    contradiction
  cases hc : c.isAscii with
  | true => rw [r.keeps.ascii c hc]
  | false => rw [outside hc, outside (r.keeps.other c hc)]

theorem letter_visible (r : Respelling) (h : Visible c) : r.letter c = c :=
  r.keeps.ascii c h.isAscii

theorem map_letter (r : Respelling) (ascii : text.all Char.isAscii) :
    text.map r.letter = text := by
  rw [List.all_eq_true] at ascii
  rw [List.map_congr_left fun c hc => r.keeps.ascii c (ascii c hc), List.map_id']

theorem letter_eq_iff (r : Respelling) (hx : x.isAscii) : r.letter c = x ↔ c = x := by
  have ascii : ∀ d : Char, decide (d = x) = true → d.isAscii := by simp [hx]
  simpa using r.letter_class ascii c

@[simp] theorem spell_nil (r : Respelling) : r.spell [] = [] := rfl

@[simp] theorem spell_append (r : Respelling) (a b : Text) :
    r.spell (a ++ b) = r.spell a ++ r.spell b := List.flatMap_append

@[simp] theorem spell_lineFeed (r : Respelling) (text : Text) :
    r.spell ('\n' :: text) = r.gap ++ '\n' :: r.spell text := by
  simp [spell]

theorem spell_cons (r : Respelling) (hc : c ≠ '\n') (text : Text) :
    r.spell (c :: text) = r.letter c :: r.spell text := by
  simp [spell, hc]

theorem spell_visible_cons (r : Respelling) (h : Visible c) (text : Text) :
    r.spell (c :: text) = c :: r.spell text := by
  rw [spell_cons r (h.ne_of_isBlank rfl).symm, r.letter_visible h]

theorem spell_visible (r : Respelling) (h : ∀ c ∈ text, Visible c) : r.spell text = text := by
  induction text with
  | nil => rfl
  | cons c text ih =>
    obtain ⟨hc, h⟩ := List.forall_mem_cons.1 h
    rw [spell_visible_cons r hc, ih h]

theorem spell_quoted (r : Respelling) (value : Text) :
    r.spell ('"' :: (value ++ ['"'])) = '"' :: (r.spell value ++ ['"']) := by
  have quote : r.spell ['"'] = ['"'] := by rw [r.spell_visible_cons (by decide), spell_nil]
  rw [r.spell_visible_cons (by decide), spell_append, quote]

theorem spell_comment (r : Respelling) (body : Text) :
    r.spell ('/' :: '*' :: body) = '/' :: '*' :: r.spell body := by
  rw [r.spell_visible_cons (by decide), r.spell_visible_cons (by decide)]

theorem Spells.of_gap (h : r.Spells ('\n' :: a) b) {gap : Text} (blank : ∀ c ∈ gap, isBlank c)
    (oneLine : '\n' ∉ gap) : r.Spells ('\n' :: a) (gap ++ b) := by
  induction gap with
  | nil => exact h
  | cons d gap ih =>
    obtain ⟨hd, blank⟩ := List.forall_mem_cons.1 blank
    rw [List.mem_cons, not_or] at oneLine
    exact .gap hd (Ne.symm oneLine.1) (ih blank oneLine.2)

theorem spells_spell (r : Respelling) (text : Text) : r.Spells text (r.spell text) := by
  induction text with
  | nil => exact .nil
  | cons c text ih =>
    by_cases hc : c = '\n'
    · subst hc
      rw [spell_lineFeed]
      exact Spells.of_gap (.lineFeed ih) r.blank r.oneLine
    · rw [spell_cons r hc]
      exact .letter hc ih

namespace Spells

theorem lineFeeds (h : r.Spells a b) : b.lineFeeds = a.lineFeeds := by
  induction h with
  | nil => rfl
  | gap _ hd _ ih => simpa [hd] using ih
  | lineFeed _ ih => simpa using ih
  | letter hc _ ih =>
    have hc' := mt (r.letter_eq_iff (by decide)).1 hc
    simpa [hc, hc'] using ih

theorem mem_iff (h : r.Spells a b) (hx : Visible x) : x ∈ b ↔ x ∈ a := by
  induction h with
  | nil => exact Iff.rfl
  | gap hd _ _ ih => simp [ih, (hx.ne_of_isBlank hd).symm]
  | lineFeed _ ih => simp [ih]
  | @letter c _ _ _ _ ih =>
    have same : x = r.letter c ↔ x = c := by rw [eq_comm, r.letter_eq_iff hx.isAscii, eq_comm]
    simp [ih, same]

theorem startsWith_eq (h : r.Spells a b) (visible : ∀ c, p c → Visible c) :
    b.startsWith p = a.startsWith p := by
  have blank {d : Char} (hd : isBlank d) : p d = false :=
    Bool.eq_false_iff.2 fun h => (visible d h).ne_of_isBlank hd rfl
  cases h with
  | nil => rfl
  | gap hd _ _ => rw [Text.startsWith_cons, Text.startsWith_cons, blank hd, blank rfl]
  | lineFeed _ => rfl
  | letter _ _ => exact r.letter_class (fun c h => (visible c h).isAscii) _

theorem head?_iff (h : r.Spells a b) (hx : Visible x) : b.head? = some x ↔ a.head? = some x := by
  have heads (text : Text) : text.head? = some x ↔ text.startsWith (· = x) = true := by
    cases text <;> simp
  rw [heads, heads, h.startsWith_eq (by simp [hx])]

theorem neverCloses_iff (h : r.Spells a b) : NeverCloses b ↔ NeverCloses a := by
  induction h with
  | nil => exact Iff.rfl
  | @gap d _ _ hd _ _ ih =>
    have hd : d ≠ '*' := Visible.ne_of_isBlank (by decide) hd
    rw [neverCloses_cons d, ih]
    simp [hd]
  | lineFeed _ ih => simp [neverCloses_cons, ih]
  | letter _ h ih =>
    rw [neverCloses_cons, neverCloses_cons, ih, h.head?_iff (by decide),
      r.letter_eq_iff (by decide)]

theorem openers_eq (h : r.Spells a b) (line : Nat) : openers line b = openers line a := by
  induction h generalizing line with
  | nil => rfl
  | @gap d _ _ hd hd' _ ih =>
    have hd : d ≠ '/' := Visible.ne_of_isBlank (by decide) hd
    rw [openers_cons]
    simp [hd, hd', ih]
  | lineFeed _ ih => simp [openers_cons, ih]
  | letter hc h ih =>
    have hc' := mt (r.letter_eq_iff (by decide)).1 hc
    simp only [openers_cons, h.head?_iff (by decide : Visible '*'),
      r.letter_eq_iff (by decide : Char.isAscii '/'), if_neg hc, if_neg hc', ih]

end Spells

theorem fraction_spell (none : fraction after = 0) : fraction (r.spell after) = 0 := by
  rw [fraction_eq_zero_iff] at none ⊢
  intro d rest same
  have point : (r.spell after).head? = some '.' := by rw [same]; rfl
  rw [(r.spells_spell after).head?_iff (by decide)] at point
  obtain ⟨more, rfl⟩ := List.head?_eq_some_iff.1 point
  rw [r.spell_visible_cons (by decide)] at same
  obtain ⟨-, same⟩ := List.cons.inj same
  have digit := (r.spells_spell more).startsWith_eq fun _ => visible_of_isDigit
  rw [same] at digit
  cases more with
  | nil => exact digit
  | cons e more => exact digit.trans (none e more rfl)

end Respelling

theorem closesOnce_iff (body : Text) : ClosesOnce body ↔ NeverCloses (body ++ ['*']) := by
  induction body with
  | nil => simp [closesOnce_nil, neverCloses_cons, neverCloses_nil]
  | cons c body ih =>
    have head : (body ++ ['*']).head? = some '/' ↔ body.head? = some '/' := by cases body <;> simp
    rw [closesOnce_cons, List.cons_append, neverCloses_cons, head, ih]

theorem Respelling.closesOnce_spell (r : Respelling) {body : Text} (once : ClosesOnce body) :
    ClosesOnce (r.spell body) := by
  have same : r.spell (body ++ ['*']) = r.spell body ++ ['*'] := by
    rw [spell_append, r.spell_visible_cons (by decide), spell_nil]
  rw [closesOnce_iff] at once ⊢
  rw [← same]
  exact (r.spells_spell _).neverCloses_iff.2 once

theorem Kind.visible_of_goesOn {kind : Kind} (h : kind.goesOn c) : Visible c := by
  simp only [goesOn, Bool.or_eq_true, Bool.and_eq_true, decide_eq_true_eq] at h
  rcases h with ⟨-, rfl | rfl⟩ | ⟨-, rfl⟩ <;> decide

def Shape.isVisible : Shape → Bool
  | .plain _ | .number => true
  | _ => false

theorem Cut.visible (h : Cut shape text after) (token : shape.isVisible) :
    ∀ c ∈ text, Visible c := by
  have fits := h.fits
  cases shape with
  | plain kind =>
    cases fits with
    | pattern fits =>
      cases fits with
      | token wf =>
        apply wf.visible
        rintro rfl
        obtain ⟨value, -, literal, -⟩ := wf.string_inv
        contradiction
  | number =>
    cases fits with
    | pattern fits => cases fits with | token wf => exact wf.visible (by decide)
  | _ => contradiction

theorem Respelling.ofChar?_letter (r : Respelling) (h : Kind.ofChar? c = none) :
    Kind.ofChar? (r.letter c) = none := by
  have same := r.letter_class (fun _ => isAscii_of_ofChar?) c
  simpa [h] using same

theorem Cut.spell (r : Respelling) (h : Cut shape text after) (blanks : shape ≠ .blank)
    (comments : shape ≠ .lineComment) :
    Cut (shape.respell r.letter) (r.spell text) (r.spell after) := by
  have same (token : shape.isVisible) := r.spell_visible (h.visible token)
  have goes := r.spells_spell after
  have quoted {value : Text} (clean : '"' ∉ value) : '"' ∉ r.spell value :=
    mt ((r.spells_spell value).mem_iff (by decide)).1 clean
  cases h with
  | symbol hk stop =>
    rw [same rfl]
    exact .symbol hk (goes.startsWith_eq (fun _ => Kind.visible_of_goesOn) ▸ stop)
  | operator hk hw =>
    rw [same rfl]
    exact .operator hk hw
  | word hc parts stop =>
    rw [same rfl]
    exact .word hc parts (goes.startsWith_eq (fun _ => visible_of_isWordPart) ▸ stop)
  | whole hc digits stop hf =>
    rw [same rfl]
    exact .whole hc digits (goes.startsWith_eq (fun _ => visible_of_isDigit) ▸ stop)
      (r.fraction_spell hf)
  | fractional hc digits hd digits' stop =>
    rw [same rfl]
    exact .fractional hc digits hd digits' (goes.startsWith_eq (fun _ => visible_of_isDigit) ▸ stop)
  | string clean =>
    rw [r.spell_quoted]
    exact .string (quoted clean)
  | blank hc => contradiction
  | lineComment _ _ => contradiction
  | blockComment once =>
    have ends : r.spell ['*', '/'] = ['*', '/'] := by
      rw [r.spell_visible_cons (by decide), r.spell_visible_cons (by decide), r.spell_nil]
    rw [r.spell_comment, r.spell_append, ends]
    exact .blockComment (r.closesOnce_spell once)
  | openString clean =>
    rw [r.spell_visible_cons (by decide)]
    exact .openString (quoted clean)
  | openComment never =>
    rw [r.spell_comment]
    exact .openComment ((r.spells_spell _).neverCloses_iff.2 never)
  | @stray c _ slash quote blank digit word none =>
    have lineFeed : c ≠ '\n' := by
      rintro rfl
      contradiction
    rw [r.spell_cons lineFeed]
    -- A stray character may be another one now, so all that it is tested for is tested again.
    refine .stray ?_ ?_ ?_ ?_ ?_ (r.ofChar?_letter none)
    · exact mt (r.letter_eq_iff (by decide)).1 slash
    · exact mt (r.letter_eq_iff (by decide)).1 quote
    · rw [r.letter_class fun _ => isAscii_of_isBlank, blank]
    · rw [r.letter_class fun _ h => (visible_of_isDigit h).isAscii, digit]
    · rw [r.letter_class fun _ h => ((isWordStart_iff _).1 h).visible.isAscii, word]

end LoxLexer
