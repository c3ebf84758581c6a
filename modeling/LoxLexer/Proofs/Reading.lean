import LoxLexer.Session.Prompt

namespace LoxLexer

def Text.encode (text : Text) : List UInt8 := text.flatMap String.utf8EncodeChar

def Text.lines : Text → List Text
  | [] => []
  | c :: rest =>
    if c = '\n' then [c] :: Text.lines rest
    else match Text.lines rest with
      | [] => [[c]]
      | line :: lines => (c :: line) :: lines

inductive Lines : Text → List Text → Prop
  | nil : Lines [] []
  | last : line ≠ [] → '\n' ∉ line → Lines line [line]
  | cons : '\n' ∉ line → Lines rest lines → Lines (line ++ '\n' :: rest) ((line ++ ['\n']) :: lines)

inductive ByteLines : List UInt8 → List (List UInt8) → Prop
  | nil : ByteLines [] []
  | last : line ≠ [] → 10 ∉ line → ByteLines line [line]
  | cons : 10 ∉ body → ByteLines rest lines →
      ByteLines (body ++ 10 :: rest) ((body ++ [10]) :: lines)

def Garbled (bytes : ByteArray) : Prop := ∀ text : String, text.toUTF8 ≠ bytes

theorem lines_lines (text : Text) : Lines text text.lines := by
  induction text with
  | nil => exact .nil
  | cons c rest ih =>
    rw [Text.lines]
    split
    next h =>
      subst h
      exact @Lines.cons [] _ _ List.not_mem_nil ih
    next h =>
      generalize Text.lines rest = lines at ih
      cases ih with
      | nil => exact .last (List.cons_ne_nil c []) (by simpa using Ne.symm h)
      | last _ clean =>
        exact .last (List.cons_ne_nil c _) (List.not_mem_cons_of_ne_of_not_mem (Ne.symm h) clean)
      | cons clean later =>
        exact .cons (List.not_mem_cons_of_ne_of_not_mem (Ne.symm h) clean) later

theorem lineFeed_not_mem_utf8EncodeChar {c : Char} (h : c ≠ '\n') :
    (10 : UInt8) ∉ String.utf8EncodeChar c := by
  have code : c.val.toNat ≠ 10 := fun same => h (Char.ext (UInt32.toNat_inj.1 same))
  have byte : UInt8.toNat 10 = 10 := rfl
  intro hm
  rw [String.utf8EncodeChar] at hm
  repeat' split at hm
  all_goals
    simp only [List.mem_cons, List.not_mem_nil, or_false, ← UInt8.toNat_inj,
      UInt8.toNat_ofNat', byte] at hm
    omega

theorem byteLines_cons (b : UInt8) (bytes : List UInt8) : byteLines (b :: bytes) =
    if b = 10 then [b] :: byteLines bytes
    else match byteLines bytes with
      | [] => [[b]]
      | line :: lines => (b :: line) :: lines := rfl

theorem byteLines_append {chunk : List UInt8} (some : chunk ≠ []) (clean : 10 ∉ chunk)
    (bytes : List UInt8) : byteLines (chunk ++ bytes) =
      match byteLines bytes with
      | [] => [chunk]
      | line :: lines => (chunk ++ line) :: lines := by
  induction chunk with
  | nil => exact absurd rfl some
  | cons b chunk ih =>
    rw [List.mem_cons, not_or] at clean
    obtain ⟨hb, clean⟩ := clean
    rw [List.cons_append, byteLines_cons, if_neg (Ne.symm hb)]
    cases chunk with
    | nil => rfl
    | cons d chunk =>
      rw [ih (List.cons_ne_nil d chunk) clean]
      cases byteLines bytes with
      | nil => rfl
      | cons line lines => rfl

theorem byteLines_line {body : List UInt8} (clean : 10 ∉ body) (rest : List UInt8) :
    byteLines (body ++ 10 :: rest) = (body ++ [10]) :: byteLines rest := by
  induction body with
  | nil => rfl
  | cons b body ih =>
    rw [List.mem_cons, not_or] at clean
    rw [List.cons_append, byteLines_cons, if_neg (Ne.symm clean.1), ih clean.2]
    rfl

theorem byteLines_of_clean {line : List UInt8} (some : line ≠ []) (clean : 10 ∉ line) :
    byteLines line = [line] := by
  have last := byteLines_append some clean []
  rwa [List.append_nil] at last

theorem byteLines_byteLines (bytes : List UInt8) : ByteLines bytes (byteLines bytes) := by
  induction bytes with
  | nil => exact .nil
  | cons b bytes ih =>
    rw [byteLines_cons]
    split
    next h =>
      subst h
      exact @ByteLines.cons [] _ _ List.not_mem_nil ih
    next h =>
      generalize byteLines bytes = lines at ih
      cases ih with
      | nil => exact .last (List.cons_ne_nil b []) (by simpa using Ne.symm h)
      | last _ clean =>
        exact .last (List.cons_ne_nil b _) (List.not_mem_cons_of_ne_of_not_mem (Ne.symm h) clean)
      | cons clean later =>
        exact .cons (List.not_mem_cons_of_ne_of_not_mem (Ne.symm h) clean) later

theorem exists_byteLines_cons (b : UInt8) (bytes : List UInt8) :
    ∃ line lines, byteLines (b :: bytes) = line :: lines := by
  have parts := flatten_byteLines (b :: bytes)
  cases h : byteLines (b :: bytes) with
  | nil => simp [h] at parts
  | cons line lines => exact ⟨line, lines, rfl⟩

theorem byteLines_append_of_ended {bytes : List UInt8} (ended : bytes.getLast? = some 10)
    (more : List UInt8) : byteLines (bytes ++ more) = byteLines bytes ++ byteLines more := by
  induction bytes with
  | nil => contradiction
  | cons b bytes ih =>
    cases bytes with
    | nil =>
      obtain rfl : b = 10 := Option.some.inj ended
      rfl
    | cons d bytes =>
      rw [List.getLast?_cons_cons] at ended
      obtain ⟨line, lines, first⟩ := exists_byteLines_cons d bytes
      rw [List.cons_append, byteLines_cons, byteLines_cons b, ih ended, first]
      split <;> rfl

theorem getLast?_of_mem_byteLines {bytes : List UInt8} (ended : bytes.getLast? = some 10) :
    ∀ line ∈ byteLines bytes, line.getLast? = some 10 := by
  induction bytes with
  | nil => contradiction
  | cons b bytes ih =>
    cases bytes with
    | nil =>
      obtain rfl : b = 10 := Option.some.inj ended
      exact List.forall_mem_singleton.2 rfl
    | cons d bytes =>
      rw [List.getLast?_cons_cons] at ended
      obtain ⟨line, lines, first⟩ := exists_byteLines_cons d bytes
      have complete := first ▸ ih ended
      rw [byteLines_cons, first]
      split
      next lineFeed => exact List.forall_mem_cons.2 ⟨lineFeed ▸ rfl, complete⟩
      next =>
        obtain ⟨last, complete⟩ := List.forall_mem_cons.1 complete
        refine List.forall_mem_cons.2 ⟨?_, complete⟩
        rw [List.getLast?_cons, last]
        rfl

theorem byteLines_encode (text : Text) : byteLines text.encode = text.lines.map Text.encode := by
  induction text with
  | nil => rfl
  | cons c rest ih =>
    rw [Text.encode, List.flatMap_cons, ← Text.encode, Text.lines]
    split
    next h =>
      subst h
      rw [List.map_cons, ← ih]
      rfl
    next h =>
      rw [byteLines_append String.utf8EncodeChar_ne_nil (lineFeed_not_mem_utf8EncodeChar h), ih]
      cases Text.lines rest with
      | nil => simp [Text.encode]
      | cons line lines => simp [Text.encode]

theorem getLast?_encode {text : Text} (ended : text.getLast? = some '\n') :
    text.encode.getLast? = some 10 := by
  obtain ⟨front, rfl⟩ := List.getLast?_eq_some_iff.1 ended
  rw [Text.encode, List.flatMap_append]
  exact List.getLast?_concat

theorem lineFeed_not_mem_encode {text : Text} (clean : '\n' ∉ text) : 10 ∉ text.encode := by
  intro hm
  obtain ⟨c, hc, hm⟩ := List.mem_flatMap.1 hm
  have other : c ≠ '\n' := fun lineFeed => clean (lineFeed ▸ hc)
  exact lineFeed_not_mem_utf8EncodeChar other hm

theorem toByteArray_encode (text : Text) :
    text.encode.toByteArray = (String.ofList text).toUTF8 := by
  rw [String.toUTF8_eq_toByteArray, String.toByteArray_ofList]
  rfl

theorem decodeText_encode (text : Text) : decodeText text.encode.toByteArray = .ok text := by
  have read : String.fromUTF8? (String.ofList text).toUTF8 = some (String.ofList text) := by
    rw [String.fromUTF8?, String.toUTF8_eq_toByteArray, dif_pos (String.ofList text).isValidUTF8]
    rfl
  rw [toByteArray_encode, decodeText, read]
  simp

theorem decodeText_toUTF8 (text : String) : decodeText text.toUTF8 = .ok text.toList := by
  have read := decodeText_encode text.toList
  rwa [toByteArray_encode, String.ofList_toList] at read

theorem eq_of_encode_eq {a b : Text} (h : a.encode = b.encode) : a = b := by
  have read := decodeText_encode a
  rw [h, decodeText_encode] at read
  exact (Except.ok.inj read).symm

theorem toByteArray_of_decodeText {bytes : ByteArray} {text : Text}
    (h : decodeText bytes = .ok text) : text.encode.toByteArray = bytes := by
  rw [decodeText, String.fromUTF8?] at h
  split at h
  next s read =>
    split at read
    next valid =>
      cases h
      cases read
      rw [toByteArray_encode, String.ofList_toList]
      rfl
    next => contradiction
  next => contradiction

theorem invalidText_of_decodeText {bytes : ByteArray} {fault : IoFault}
    (h : decodeText bytes = .error fault) : fault = .invalidText := by
  rw [decodeText] at h
  split at h
  next => contradiction
  next => exact (Except.error.inj h).symm

theorem garbled_iff (bytes : ByteArray) :
    Garbled bytes ↔ decodeText bytes = .error .invalidText := by
  constructor
  · intro garbled
    cases h : decodeText bytes with
    | ok text =>
      have same := toByteArray_of_decodeText h
      rw [toByteArray_encode] at same
      exact absurd same (garbled _)
    | error fault => rw [invalidText_of_decodeText h]
  · rintro h text rfl
    rw [decodeText_toUTF8] at h
    contradiction

theorem toList_loop (bytes : ByteArray) (i : Nat) (done : List UInt8) :
    ByteArray.toList.loop bytes i done = done.reverse ++ bytes.data.toList.drop i := by
  fun_induction ByteArray.toList.loop bytes i done with
  | case1 i done h ih =>
    have inside : i < bytes.data.toList.length := by simpa using h
    rw [ih, List.drop_eq_getElem_cons inside]
    simp [ByteArray.get!, h]
  | case2 i done h =>
    have beyond : bytes.data.toList.length ≤ i := by simpa using h
    rw [List.drop_eq_nil_of_le beyond, List.append_nil]

theorem toList_toByteArray (bytes : List UInt8) : bytes.toByteArray.toList = bytes := by
  rw [ByteArray.toList, toList_loop, List.toList_data_toByteArray]
  rfl

theorem encode_or_garbled (line : List UInt8) :
    (∃ text : Text, line = text.encode) ∨ Garbled line.toByteArray := by
  cases h : decodeText line.toByteArray with
  | ok text =>
    have same := congrArg ByteArray.toList (toByteArray_of_decodeText h)
    rw [toList_toByteArray, toList_toByteArray] at same
    exact .inl ⟨text, same.symm⟩
  | error fault =>
    rw [invalidText_of_decodeText h] at h
    exact .inr ((garbled_iff _).2 h)

theorem Read.ofLine_encode (line : Text) : Read.ofLine line.encode = .line line := by
  rw [ofLine, decodeText_encode]

theorem Read.ofLine_of_garbled {line : List UInt8} (h : Garbled line.toByteArray) :
    Read.ofLine line = .failed .invalidText := by
  rw [ofLine, (garbled_iff _).1 h]

theorem Read.ofLine_byteLines_encode (text : Text) :
    (byteLines text.encode).map ofLine = text.lines.map .line := by
  rw [byteLines_encode, List.map_map]
  exact List.map_congr_left fun line _ => ofLine_encode line

theorem Input.reads_of_decodeText {bytes : ByteArray} {text : Text}
    (h : decodeText bytes = .ok text) : Input.reads ⟨bytes, none⟩ = text.lines.map .line := by
  rw [reads, ← toByteArray_of_decodeText h, toList_toByteArray]
  exact Read.ofLine_byteLines_encode text

theorem Input.reads_line {body : List UInt8} (clean : 10 ∉ body) (rest : List UInt8)
    (failure : Option IoFault) : Input.reads ⟨(body ++ 10 :: rest).toByteArray, failure⟩ =
      Read.ofLine (body ++ [10]) :: Input.reads ⟨rest.toByteArray, failure⟩ := by
  have complete : (body ++ [10]).getLast? = some 10 := List.getLast?_concat
  cases failure with
  | none => simp only [reads, toList_toByteArray, byteLines_line clean, List.map_cons]
  | some fault =>
    simp only [reads, toList_toByteArray, byteLines_line clean, List.filter_cons, complete,
      decide_true, if_true, List.map_cons, List.cons_append]

theorem Input.reads_append {text : Text} (ended : text.getLast? = some '\n') (more : List UInt8)
    (failure : Option IoFault) : Input.reads ⟨(text.encode ++ more).toByteArray, failure⟩ =
      text.lines.map .line ++ Input.reads ⟨more.toByteArray, failure⟩ := by
  have split := byteLines_append_of_ended (getLast?_encode ended) more
  have complete :
      (byteLines text.encode).filter (·.getLast? = some 10) = byteLines text.encode := by
    rw [List.filter_eq_self]
    intro line hl
    exact decide_eq_true (getLast?_of_mem_byteLines (getLast?_encode ended) line hl)
  cases failure with
  | none =>
    simp only [reads, toList_toByteArray, split, List.map_append, Read.ofLine_byteLines_encode]
  | some fault =>
    simp only [reads, toList_toByteArray, split, List.filter_append, complete, List.map_append,
      Read.ofLine_byteLines_encode, List.append_assoc]

open Prompt

/-- All of the line but the carriage returns and line feeds at its end. -/
structure Stripped (line stripped : Text) : Prop where
  ends : ∃ gap, line = stripped ++ gap ∧ ∀ c ∈ gap, c = '\n' ∨ c = '\r'
  last : ∀ c ∈ stripped.getLast?, c ≠ '\n' ∧ c ≠ '\r'

theorem stripped_command (line : Text) : Stripped line (command line) where
  ends := by
    refine ⟨(line.reverse.takeWhile fun c => c = '\n' || c = '\r').reverse, ?_, ?_⟩
    · rw [command, ← List.reverse_append, List.takeWhile_append_dropWhile, List.reverse_reverse]
    · intro c hc
      simpa using List.all_eq_true.1 List.all_takeWhile c (List.mem_reverse.1 hc)
  last := by
    intro c hc
    rw [command, List.getLast?_reverse] at hc
    have stops := List.head?_dropWhile_not (fun c => c = '\n' || c = '\r') line.reverse
    rw [hc] at stops
    simpa using stops

theorem command_append_lineFeed (body : Text) : command (body ++ ['\n']) = command body := by
  simp [command]

theorem exists_carriageReturns {body : Text} (clean : '\n' ∉ body) :
    ∃ gap, body = command body ++ gap ∧ ∀ c ∈ gap, c = '\r' := by
  obtain ⟨gap, parts, ends⟩ := (stripped_command body).ends
  refine ⟨gap, parts, ?_⟩
  intro c hc
  refine (ends c hc).resolve_left fun lineFeed => clean ?_
  rw [parts, ← lineFeed]
  exact List.mem_append_right _ hc

theorem lineFeed_not_mem_command {body : Text} (clean : '\n' ∉ body) : '\n' ∉ command body := by
  obtain ⟨gap, parts, -⟩ := exists_carriageReturns clean
  intro hm
  exact clean (parts ▸ List.mem_append_left gap hm)

end LoxLexer
