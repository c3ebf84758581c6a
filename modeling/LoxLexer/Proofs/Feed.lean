import LoxLexer.Text

namespace LoxLexer

namespace Text

def bytes : Text → Nat
  | [] => 0
  | c :: rest => c.utf8Size + bytes rest

def indexed (offset : Nat) : Text → List (Nat × Char)
  | [] => []
  | c :: rest => (offset, c) :: indexed (offset + c.utf8Size) rest

/-- What stands before a byte offset, and what stands behind it. -/
def splitAt? (offset : Nat) : Text → Option (Text × Text)
  | [] => if offset = 0 then some ([], []) else none
  | c :: rest =>
    if offset = 0 then some ([], c :: rest)
    else if c.utf8Size ≤ offset then
      (splitAt? (offset - c.utf8Size) rest).map fun (before, after) => (c :: before, after)
    else none

def slice? (low high : Nat) (text : Text) : Option Text := do
  let (_, behind) ← splitAt? low text
  if low ≤ high then
    let (between, _) ← splitAt? (high - low) behind
    return between
  else none

end Text

structure Feed where
  State : Type
  wrap : List (Nat × Char) → State
  next : State → Option (Nat × Char) × State
  peek : State → Option (Nat × Char) × State
  peekSecond : State → Option (Nat × Char) × State

namespace Feed

inductive Yields (F : Feed) : F.State → List (Nat × Char) → Prop
  | ended : F.next s = (none, s') → Yields F s []
  | next : F.next s = (some item, s') → Yields F s' items → Yields F s (item :: items)

/-- Looking ahead shows the next item or the one behind it, and takes none. An end is final. -/
structure Faithful (F : Feed) : Prop where
  wrap : ∀ items, F.Yields (F.wrap items) items
  fused : F.Yields s [] → F.Yields (F.next s).2 []
  peek : F.Yields s items → (F.peek s).1 = items.head? ∧ F.Yields (F.peek s).2 items
  peekSecond : F.Yields s items → (F.peekSecond s).1 = items[1]? ∧ F.Yields (F.peekSecond s).2 items

def Consumes (F : Feed) (s s' : F.State) : Prop :=
  ∃ item items, F.Yields s (item :: items) ∧ F.Yields s' items

end Feed

structure Buffer where
  seen : List (Nat × Char)
  behind : List (Nat × Char)

namespace Buffer

def next : Buffer → Option (Nat × Char) × Buffer
  | ⟨item :: seen, behind⟩ => (some item, ⟨seen, behind⟩)
  | ⟨[], behind⟩ => (behind.head?, ⟨[], behind.tail⟩)

def fill (b : Buffer) (n : Nat) : Buffer :=
  ⟨b.seen ++ b.behind.take (n - b.seen.length), b.behind.drop (n - b.seen.length)⟩

def peekAt (n : Nat) (b : Buffer) : Option (Nat × Char) × Buffer :=
  ((b.fill (n + 1)).seen[n]?, b.fill (n + 1))

end Buffer

def Feed.buffered : Feed := ⟨Buffer, Buffer.mk [], Buffer.next, Buffer.peekAt 0, Buffer.peekAt 1⟩

variable {F : Feed} {a b c text : Text} {s s' : F.State} {item : Nat × Char}
  {items more : List (Nat × Char)}

namespace Text

@[simp] theorem bytes_nil : bytes [] = 0 := rfl

@[simp] theorem bytes_cons (c : Char) (text : Text) : bytes (c :: text) = c.utf8Size + bytes text :=
  rfl

@[simp] theorem bytes_append (a b : Text) : bytes (a ++ b) = bytes a + bytes b := by
  induction a with
  | nil => exact (Nat.zero_add _).symm
  | cons c a ih => rw [List.cons_append, bytes_cons, ih, bytes_cons, Nat.add_assoc]

theorem bytes_eq (text : Text) : bytes text = (String.ofList text).utf8ByteSize := by
  induction text with
  | nil => rfl
  | cons c text ih =>
    rw [bytes_cons, ih, String.ofList_cons, String.utf8ByteSize_append,
      String.utf8ByteSize_singleton]

theorem isValid_bytes (a b : Text) :
    (⟨bytes a⟩ : String.Pos.Raw).IsValid (String.ofList (a ++ b)) :=
  String.Pos.Raw.isValid_ofList.2 ⟨a.length, by rw [List.take_left, bytes_eq]⟩

theorem splitAt?_bytes (a b : Text) : splitAt? (bytes a) (a ++ b) = some (a, b) := by
  induction a with
  | nil => cases b <;> simp [splitAt?]
  | cons c a ih =>
    have nonzero : c.utf8Size + bytes a ≠ 0 := by
      have := c.utf8Size_pos
      omega
    rw [List.cons_append, bytes_cons, splitAt?, if_neg nonzero, if_pos (Nat.le_add_right ..),
      Nat.add_sub_cancel_left, ih]
    rfl

theorem slice?_bytes (a b c : Text) :
    slice? (bytes a) (bytes (a ++ b)) (a ++ (b ++ c)) = some b := by
  simp [slice?, splitAt?_bytes]

end Text

namespace Feed

theorem Yields.fst_next (h : F.Yields s items) : (F.next s).1 = items.head? := by
  cases h with
  | ended next => rw [next]; rfl
  | next next _ => rw [next]; rfl

theorem Yields.snd_next (h : F.Yields s (item :: items)) : F.Yields (F.next s).2 items := by
  cases h with
  | next next later => rwa [next]

theorem Yields.unique (h : F.Yields s items) (h' : F.Yields s more) : items = more := by
  induction h generalizing more with
  | ended next =>
    have first := h'.fst_next
    rw [next] at first
    exact (List.head?_eq_none_iff.1 first.symm).symm
  | next next later ih =>
    cases h' with
    | ended next' => rw [next] at next'; cases next'
    | next next' later' =>
      rw [next] at next'
      cases next'
      rw [ih later']

end Feed

namespace Buffer

theorem yields (seen behind : List (Nat × Char)) :
    Feed.buffered.Yields (Buffer.mk seen behind) (seen ++ behind) := by
  induction seen with
  | cons item seen ih => exact .next rfl ih
  | nil =>
    induction behind with
    | nil => exact .ended rfl
    | cons item behind ih => exact .next rfl ih

theorem yields_iff (b : Buffer) : Feed.buffered.Yields b items ↔ items = b.seen ++ b.behind :=
  ⟨fun h => h.unique (yields b.seen b.behind), fun h => h ▸ yields b.seen b.behind⟩

theorem fill_items (b : Buffer) (n : Nat) :
    (b.fill n).seen ++ (b.fill n).behind = b.seen ++ b.behind := by
  simp [fill]

theorem fst_peekAt (n : Nat) (b : Buffer) : (b.peekAt n).1 = (b.seen ++ b.behind)[n]? := by
  obtain ⟨seen, behind⟩ := b
  simp only [peekAt, fill, List.getElem?_append]
  split
  next inside => rfl
  next outside => rw [List.getElem?_take_of_lt (by omega)]

theorem faithful_peekAt {b : Buffer} (h : Feed.buffered.Yields b items) (n : Nat) :
    (b.peekAt n).1 = items[n]? ∧ Feed.buffered.Yields (b.peekAt n).2 items := by
  rw [yields_iff] at h ⊢
  rw [h]
  exact ⟨fst_peekAt n b, (fill_items b (n + 1)).symm⟩

end Buffer

theorem Feed.faithful_buffered : buffered.Faithful where
  wrap items := Buffer.yields [] items
  fused {b} h := by
    obtain ⟨seen, behind⟩ := b
    obtain ⟨rfl, rfl⟩ := List.append_eq_nil_iff.1 ((Buffer.yields_iff _).1 h).symm
    exact Buffer.yields [] []
  peek h := List.head?_eq_getElem? ▸ Buffer.faithful_peekAt h 0
  peekSecond h := Buffer.faithful_peekAt h 1

end LoxLexer
