import Choam.Lib.Decoder
import Choam.Catalog.Codec

/-!
# Truncated encodings

A row is decoded by a reader that leaves what follows, a catalog entry and the index of names by
decoders that need as many bytes as the encoding of what they find. So every strict prefix of what
was encoded is refused.
-/

namespace Choam

open ByteString

/-! ## Rows -/

theorem extends_decodeLengthPrefixed (ty : ColumnType) :
    Extends (decodeLengthPrefixed · ty) := by
  intro data x rest tail h
  simp only [decodeLengthPrefixed] at h ⊢
  split at h
  · cases h
  next h4 =>
  split at h
  · cases h
  next hlen =>
  cases h
  rw [if_neg (by rw [List.length_append]; omega), take_append h4,
    if_neg (by rw [List.length_append]; omega), drop_append h4, drop_append hlen,
    take_append (by rw [List.length_drop]; omega)]

theorem extends_decodeValue (ty : ColumnType) : Extends (decodeValue · ty) := by
  cases ty with
  | integer =>
    intro data x rest tail h
    simp only [decodeValue] at h ⊢
    split at h
    · cases h
    next h8 =>
      cases h
      rw [if_neg (by rw [List.length_append]; omega), take_append h8, drop_append h8]
  | boolean =>
    intro data x rest tail h
    cases data with
    | nil => cases h
    | cons b data =>
      cases h
      rfl
  | text =>
    intro data x rest tail h
    obtain ⟨⟨bytes, rest'⟩, hbytes, h⟩ := Except.bind_eq_ok.mp h
    refine Except.bind_eq_ok.mpr ⟨_, extends_decodeLengthPrefixed .text _ _ _ tail hbytes, ?_⟩
    dsimp only at h ⊢
    cases hs : fromUtf8 bytes with
    | none =>
      rw [hs] at h
      cases h
    | some s =>
      rw [hs] at h
      cases h
      rfl
  | bytes =>
    intro data x rest tail h
    obtain ⟨⟨bytes, rest'⟩, hbytes, h⟩ := Except.bind_eq_ok.mp h
    refine Except.bind_eq_ok.mpr ⟨_, extends_decodeLengthPrefixed .bytes _ _ _ tail hbytes, ?_⟩
    cases h
    rfl

theorem extends_decodeColumns (bitmap : Bytes) (i : ℕ) (cols : List ColumnDef) :
    Extends (decodeColumns bitmap i cols) := by
  induction cols generalizing i with
  | nil =>
    intro data x rest tail h
    cases h
    rfl
  | cons c cols ih =>
    intro data x rest tail h
    rw [decodeColumns] at h ⊢
    by_cases hset : bitSet bitmap i = true
    · rw [if_pos hset] at h ⊢
      split at h
      · cases h
      next hcols =>
        cases h
        rw [ih _ _ _ _ tail hcols]
    · rw [if_neg hset] at h ⊢
      split at h
      · cases h
      next hv =>
        have hmore : decodeValue (data ++ tail) c.ty = _ := extends_decodeValue c.ty _ _ _ tail hv
        rw [hmore]
        dsimp only
        split at h
        · cases h
        next hcols =>
          cases h
          rw [ih _ _ _ _ tail hcols]

theorem decodeRow_torn {s : Schema} {values : List Value} {bs p : Bytes}
    (h : encodeRow s values = .ok bs)
    (hfit : ∀ v ∈ values, v.Fits) (hp : p <+: bs) (hne : p ≠ bs) :
    ∃ e, decodeRow s p = .error e := by
  obtain ⟨-, hdec⟩ := decodeColumns_encodeRow h hfit
  obtain ⟨tail, rfl⟩ := hp
  unfold decodeRow
  dsimp only
  split
  · exact ⟨_, rfl⟩
  next hlen =>
  rw [take_append hlen, drop_append hlen] at hdec
  obtain ⟨e, he⟩ := (extends_decodeColumns _ _ _).torn hdec (List.prefix_append _ _)
    fun heq => hne (by rw [List.self_eq_append_right.mp heq, List.append_nil])
  exact ⟨e, by rw [he]⟩

/-! ## Catalog entries -/

theorem readString_append {data rest tail : Bytes} {s : String} (h : readString data = .ok (s, rest)) :
    readString (data ++ tail) = .ok (s, rest ++ tail) ∧
      data.length = (writeString s).length + rest.length := by
  unfold readString at h ⊢
  split at h
  · cases h
  next h2 =>
  dsimp only at h
  split at h
  · cases h
  next hlen =>
  split at h
  · cases h
  next s' hs =>
  cases h
  rw [if_neg (by rw [List.length_append]; omega), take_append h2]
  dsimp only
  rw [if_neg (by rw [List.length_append]; omega), drop_append h2, drop_append hlen,
    take_append (by rw [List.length_drop]; omega), hs]
  refine ⟨rfl, ?_⟩
  have hutf8 := congrArg List.length (utf8_of_fromUtf8 hs)
  rw [List.length_take, List.length_drop] at hutf8
  rw [writeString, List.length_append, length_le, hutf8, List.length_drop]
  omega

theorem whole_readColumns (n : ℕ) :
    Whole (readColumns n) fun cols => (cols.flatMap writeColumn).length := by
  induction n with
  | zero => exact ⟨fun data x h => by cases h; simp, fun data x tail h => h⟩
  | succ n ih =>
    refine ⟨fun data x h => ?_, fun data x tail h => ?_⟩
    all_goals
      obtain ⟨⟨name, after⟩, hname, h⟩ := Except.bind_eq_ok.mp h
    · obtain ⟨-, hlen⟩ := @readString_append _ _ [] _ hname
      obtain _ | ⟨tag, _ | ⟨nullable, rest⟩⟩ := after
      · cases h
      · cases h
      obtain ⟨ty, -, h⟩ := Except.bind_eq_ok.mp h
      obtain ⟨cols, hcols, h⟩ := Except.bind_eq_ok.mp h
      cases h
      have hle := ih.size_le _ _ hcols
      simp only [List.flatMap_cons, writeColumn, List.length_append, List.length_cons,
        List.length_nil] at hle hlen ⊢
      omega
    · obtain ⟨happ, -⟩ := @readString_append _ _ tail _ hname
      obtain _ | ⟨tag, _ | ⟨nullable, rest⟩⟩ := after
      · cases h
      · cases h
      obtain ⟨ty, hty, h⟩ := Except.bind_eq_ok.mp h
      obtain ⟨cols, hcols, h⟩ := Except.bind_eq_ok.mp h
      cases h
      refine Except.bind_eq_ok.mpr ⟨_, happ, Except.bind_eq_ok.mpr ⟨ty, hty, ?_⟩⟩
      exact Except.bind_eq_ok.mpr ⟨cols, ih.append _ _ tail hcols, rfl⟩

theorem whole_readNames (n : ℕ) :
    Whole (readNames n) fun names => (names.flatMap writeString).length := by
  induction n with
  | zero => exact ⟨fun data x h => by cases h; simp, fun data x tail h => h⟩
  | succ n ih =>
    refine ⟨fun data x h => ?_, fun data x tail h => ?_⟩
    all_goals
      obtain ⟨⟨name, after⟩, hname, h⟩ := Except.bind_eq_ok.mp h
      obtain ⟨names, hnames, h⟩ := Except.bind_eq_ok.mp h
      cases h
    · obtain ⟨-, hlen⟩ := @readString_append _ _ [] _ hname
      have hle := ih.size_le _ _ hnames
      simp only [List.flatMap_cons, List.length_append] at hle ⊢
      omega
    · obtain ⟨happ, -⟩ := @readString_append _ _ tail _ hname
      exact Except.bind_eq_ok.mpr ⟨_, happ, Except.bind_eq_ok.mpr ⟨names, ih.append _ _ tail hnames, rfl⟩⟩

theorem whole_decodeTableIndex :
    Whole decodeTableIndex fun names => (encodeTableIndex names).length := by
  refine ⟨fun data x h => ?_, fun data x tail h => ?_⟩
  · obtain ⟨h4, h⟩ := decodeTableIndex_eq_ok.mp h
    have hle := (whole_readNames _).size_le _ _ h
    rw [List.length_drop] at hle
    rw [encodeTableIndex, List.length_append, length_le]
    omega
  · obtain ⟨h4, h⟩ := decodeTableIndex_eq_ok.mp h
    refine decodeTableIndex_eq_ok.mpr ⟨by rw [List.length_append]; omega, ?_⟩
    rw [take_append h4, drop_append h4]
    exact (whole_readNames _).append _ _ tail h

theorem whole_decodeTableEntry :
    Whole decodeTableEntry fun p => (encodeTableEntry p.1 p.2).length := by
  refine ⟨fun data x h => ?_, fun data x tail h => ?_⟩
  · obtain ⟨h4, name, rest, columns, hname, hrest, hcolumns, hschema, -⟩ :=
      decodeTableEntry_eq_ok.mp h
    obtain ⟨rfl, rfl, -⟩ := Schema.new_ok hschema
    obtain ⟨-, hlen⟩ := @readString_append _ _ [] _ hname
    have hle := (whole_readColumns _).size_le _ _ hcolumns
    rw [List.length_drop] at hlen hle
    simp only [encodeTableEntry, List.length_append, length_le]
    omega
  · obtain ⟨h4, name, rest, columns, hname, hrest, hcolumns, hschema, hid⟩ :=
      decodeTableEntry_eq_ok.mp h
    obtain ⟨happ, -⟩ := @readString_append _ _ tail _ hname
    refine decodeTableEntry_eq_ok.mpr ⟨by rw [List.length_append]; omega, name, rest ++ tail,
      columns, ?_, by rw [List.length_append]; omega, ?_, ?_, ?_⟩
    · rw [drop_append h4, happ]
    · rw [take_append (by omega), drop_append hrest]
      exact (whole_readColumns _).append _ _ tail hcolumns
    · rwa [drop_append (by omega), take_append (by rw [List.length_drop]; omega)]
    · rw [hid, take_append h4]

/-- **No torn encoding is accepted**: a strict prefix of the encoding of a row, a catalog entry or
the index of table names does not decode. -/
theorem truncated_encoding_refused :
    (∀ (schema : Schema) (values : List Value) (bs p : Bytes), encodeRow schema values = .ok bs →
      (∀ v ∈ values, v.Fits) → p <+: bs → p ≠ bs → ∃ e, decodeRow schema p = .error e) ∧
    (∀ (id : UInt32) (schema : Schema) (p : Bytes), schema.FitsEntry →
      p <+: encodeTableEntry id schema → p ≠ encodeTableEntry id schema →
        ∃ e, decodeTableEntry p = .error e) ∧
    ∀ (names : List String) (p : Bytes), (∀ n ∈ names, FitsName n) → names.length < 2 ^ 32 →
      p <+: encodeTableIndex names → p ≠ encodeTableIndex names →
        ∃ e, decodeTableIndex p = .error e :=
  ⟨fun _ _ _ _ h hfit hp hne => decodeRow_torn h hfit hp hne,
    fun id _ _ hfits hp hne =>
      whole_decodeTableEntry.torn (decodeTableEntry_encode id hfits) le_rfl hp hne,
    fun _ _ hfits hlen hp hne =>
      whole_decodeTableIndex.torn (decodeTableIndex_encode hfits hlen) le_rfl hp hne⟩

/-- CREATE TABLE ab (n INTEGER PRIMARY KEY, t TEXT). -/
def tornSchema : Schema :=
  ⟨"ab", [⟨"n", .integer, false⟩, ⟨"t", .text, true⟩], 0, by decide, by decide, by decide⟩

/-- The row is cut in the length of its text, the entry before the type of a column, the index in a
length. -/
theorem truncated_encoding_refused_sample :
    (∃ e, decodeRow tornSchema [0, 0, 0, 0, 0, 0, 0, 0, 7, 3, 0] = .error e) ∧
    (∃ e, decodeTableEntry [3, 0, 0, 0, 2, 0, 97, 98, 2, 0, 0, 0, 1, 0, 110] = .error e) ∧
    ∃ e, decodeTableIndex (le 4 2 ++ writeString "ab" ++ [1, 0]) = .error e := by
  obtain ⟨hrow, hentry, hindex⟩ := truncated_encoding_refused
  refine ⟨?_, ?_, ?_⟩
  · exact hrow tornSchema [.integer 7, .text "xyz"]
      [0, 0, 0, 0, 0, 0, 0, 0, 7, 3, 0, 0, 0, 120, 121, 122] _ (by decide) (by decide) (by decide)
      (by decide)
  · exact hentry 3 tornSchema _ ⟨by decide, by decide, by decide⟩ (by decide) (by decide)
  · exact hindex ["ab", "c"] _ (by decide) (by decide) ⟨[99], by decide⟩ (by decide)

end Choam
