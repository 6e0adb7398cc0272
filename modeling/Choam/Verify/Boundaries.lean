import Choam.Sql.ByteLexer
import Choam.Verify.Lexing

/-!
# Slices at character boundaries

The lexer on bytes only looks at bytes that start a character, and an ASCII byte there is that
character (`byte_iff`). So its loops stop where those on characters do, all of its slices are at
character boundaries, and it is `lex` (`lexBytes_eq`).
-/

namespace Choam

open ByteString Lexer ByteLexer

variable {u : Unicode}

/-! ## Bytes -/

theorem utf8_ofList (cs : List Char) :
    utf8 (String.ofList cs) = cs.flatMap String.utf8EncodeChar := by
  rw [utf8, String.toByteArray_ofList, List.utf8Encode]
  simp

theorem bytes_append (front rest : List Char) :
    bytes (front ++ rest) = bytes front ++ bytes rest := by
  simp only [bytes, utf8_ofList, List.flatMap_append]

/-- The first byte of a character: the character itself, or no ASCII byte. -/
theorem utf8EncodeChar_head (c : Char) : ∃ b bs, String.utf8EncodeChar c = b :: bs ∧
    (c.toNat < 128 ∧ b.toNat = c.toNat ∨ 128 ≤ c.toNat ∧ 128 ≤ b.toNat) := by
  have hval : c.val.toNat = c.toNat := rfl
  unfold String.utf8EncodeChar
  dsimp only
  rw [hval]
  split
  · refine ⟨_, _, rfl, .inl ⟨by omega, ?_⟩⟩
    rw [UInt8.toNat_ofNat']
    omega
  · split
    · refine ⟨_, _, rfl, .inr ⟨by omega, ?_⟩⟩
      rw [UInt8.toNat_ofNat']
      omega
    · split
      · refine ⟨_, _, rfl, .inr ⟨by omega, ?_⟩⟩
        rw [UInt8.toNat_ofNat']
        omega
      · refine ⟨_, _, rfl, .inr ⟨by omega, ?_⟩⟩
        rw [UInt8.toNat_ofNat']
        omega

/-- The byte behind some characters starts the next one. -/
theorem getElem?_bytes (front : List Char) (c : Char) (rest : List Char) :
    ∃ b, (bytes (front ++ c :: rest))[utf8Len front]? = some b ∧
      (c.toNat < 128 ∧ b.toNat = c.toNat ∨ 128 ≤ c.toNat ∧ 128 ≤ b.toNat) := by
  obtain ⟨b, bs, henc, hb⟩ := utf8EncodeChar_head c
  refine ⟨b, ?_, hb⟩
  rw [bytes_append, ← length_bytes, List.getElem?_append_right le_rfl, Nat.sub_self]
  rw [bytes, utf8_ofList, List.flatMap_cons, henc]
  rfl

theorem getElem?_bytes_nil (front : List Char) : (bytes front)[utf8Len front]? = none := by
  rw [List.getElem?_eq_none_iff, length_bytes]

/-- An ASCII byte behind some characters is the next character. -/
theorem byte_iff (front rest : List Char) {a : Char} (ha : a.toNat < 128) :
    (bytes (front ++ rest))[utf8Len front]? = some (UInt8.ofNat a.toNat) ↔ rest.head? = some a := by
  cases rest with
  | nil => simp [getElem?_bytes_nil]
  | cons c rest =>
    obtain ⟨b, hb, hcase⟩ := getElem?_bytes front c rest
    have htoNat : (UInt8.ofNat a.toNat).toNat = a.toNat := by
      rw [UInt8.toNat_ofNat']
      omega
    rw [hb, Option.some_inj, List.head?_cons, Option.some_inj]
    constructor
    · rintro rfl
      rw [htoNat] at hcase
      rcases hcase with ⟨-, heq⟩ | ⟨-, hge⟩
      · exact (Char.toNat_inj.mp heq).symm
      · omega
    · rintro rfl
      refine UInt8.toNat_inj.mp ?_
      rw [htoNat]
      rcases hcase with ⟨-, heq⟩ | ⟨hge, -⟩
      · exact heq
      · omega

/-! ## Slices -/

theorem sliceFrom_append (front rest : List Char) :
    sliceFrom (front ++ rest) (utf8Len front) = some rest := by
  induction front with
  | nil =>
    cases rest <;> rfl
  | cons c front ih =>
    have hsize := c.utf8Size_pos
    rw [utf8Len_cons]
    obtain ⟨n, hn⟩ : ∃ n, c.utf8Size + utf8Len front = n + 1 := ⟨_, (Nat.succ_pred (by omega)).symm⟩
    rw [hn, List.cons_append, sliceFrom, if_pos (by omega), ← hn, Nat.add_sub_cancel_left]
    exact ih

theorem sliceTo_append (front rest : List Char) :
    sliceTo (front ++ rest) (utf8Len front) = some front := by
  induction front with
  | nil => rw [utf8Len, List.map_nil, List.sum_nil, sliceTo]
  | cons c front ih =>
    have hsize := c.utf8Size_pos
    rw [utf8Len_cons]
    obtain ⟨n, hn⟩ : ∃ n, c.utf8Size + utf8Len front = n + 1 := ⟨_, (Nat.succ_pred (by omega)).symm⟩
    rw [hn, List.cons_append, sliceTo, if_pos (by omega), ← hn, Nat.add_sub_cancel_left, ih]
    rfl

/-- A slice from behind some characters to behind more of them. -/
theorem slice_append (front piece rest : List Char) :
    slice (front ++ (piece ++ rest)) (utf8Len front) (utf8Len (front ++ piece)) = some piece := by
  rw [slice, utf8Len_append, if_pos (Nat.le_add_right _ _), sliceFrom_append, Nat.add_sub_cancel_left]
  exact sliceTo_append piece rest

theorem charAt_append (front rest : List Char) :
    charAt (front ++ rest) (utf8Len front) = some rest.head? := by
  rw [charAt, sliceFrom_append]
  rfl

theorem utf8Len_lt_iff (front rest : List Char) :
    utf8Len front < (bytes (front ++ rest)).length ↔ rest ≠ [] := by
  rw [length_bytes, utf8Len_append]
  cases rest with
  | nil => simp [utf8Len]
  | cons c rest =>
    have hsize := c.utf8Size_pos
    rw [utf8Len_cons]
    simp only [ne_eq, reduceCtorEq, not_false_eq_true, iff_true]
    omega

/-! ## The loops -/

theorem utf8Len_concat (front : List Char) (c : Char) :
    utf8Len (front ++ [c]) = utf8Len front + c.utf8Size := by
  rw [utf8Len_append, utf8Len_cons]
  rfl

/-- The run of digits is found. -/
theorem skipDigits_eq (front rest : List Char) :
    skipDigits (bytes (front ++ rest)) (utf8Len front) =
      utf8Len (front ++ rest.takeWhile Char.isDigit) := by
  induction rest generalizing front with
  | nil =>
    rw [skipDigits, dif_neg fun h => (utf8Len_lt_iff front []).mp h rfl]
    simp
  | cons c rest ih =>
    have hlt := (utf8Len_lt_iff front (c :: rest)).mpr (List.cons_ne_nil c rest)
    obtain ⟨b, hb, hcase⟩ := getElem?_bytes front c rest
    have hget := (List.getElem?_eq_some_iff.mp hb).2
    have hdigit : isAsciiDigit b = c.isDigit := by
      have h0 : ('0' : Char).val.toNat = 48 := rfl
      have h9 : ('9' : Char).val.toNat = 57 := rfl
      have hval : c.val.toNat = c.toNat := rfl
      rw [Bool.eq_iff_iff]
      simp only [isAsciiDigit, Char.isDigit, Bool.and_eq_true, decide_eq_true_eq, ge_iff_le,
        UInt32.le_iff_toNat_le]
      omega
    rw [skipDigits, dif_pos hlt, hget, hdigit]
    by_cases hc : c.isDigit = true
    · have hsize : utf8Len [c] = [c].length :=
        utf8Len_of_isDigit (List.forall_mem_singleton.mpr hc)
      have hstep := ih (front ++ [c])
      rw [List.append_assoc, List.singleton_append, utf8Len_append front [c], hsize] at hstep
      rw [if_pos hc, List.takeWhile_cons_of_pos hc]
      refine hstep.trans ?_
      rw [List.append_assoc, List.singleton_append]
    · rw [if_neg hc, List.takeWhile_cons_of_neg hc, List.append_nil]

/-- The word is found. -/
theorem skipWord_eq (front rest : List Char) :
    skipWord u (front ++ rest) (utf8Len front) =
      some (utf8Len (front ++ rest.takeWhile (isWordChar u))) := by
  induction rest generalizing front with
  | nil =>
    rw [skipWord, if_neg fun h => (utf8Len_lt_iff front []).mp h rfl]
    simp
  | cons c rest ih =>
    have hlt := (utf8Len_lt_iff front (c :: rest)).mpr (List.cons_ne_nil c rest)
    rw [skipWord, if_pos hlt, charAt_append]
    dsimp only [List.head?_cons]
    by_cases hc : isWordChar u c = true
    · have hstep := ih (front ++ [c])
      rw [List.append_assoc, List.singleton_append, utf8Len_concat] at hstep
      rw [if_pos hc, List.takeWhile_cons_of_pos hc, hstep, List.append_assoc]
      rfl
    · rw [if_neg hc, List.takeWhile_cons_of_neg hc, List.append_nil]

theorem skipString_some {input s : List Char} {i : Nat} {ch : Char}
    (h : charAt input i = some (some ch)) : skipString input s i =
      if ch = '\'' then
        if (bytes input)[i + ch.utf8Size]? = some 39 then
          skipString input (s ++ ['\'']) (i + ch.utf8Size + 1)
        else some (some (s, i + ch.utf8Size))
      else skipString input (s ++ [ch]) (i + ch.utf8Size) := by
  rw [skipString]
  split
  next hnone =>
    rw [h] at hnone
    cases hnone
  next hend =>
    rw [h] at hend
    cases hend
  next c hc =>
    rw [h] at hc
    cases hc
    rfl

/-- The end of a string literal is found. -/
theorem skipString_eq (front rest s : List Char) :
    skipString (front ++ rest) s (utf8Len front) = some ((lexString rest).map fun r =>
      (s ++ r.1, utf8Len (front ++ rest) - utf8Len r.2)) := by
  have hquote : '\''.utf8Size = 1 := rfl
  -- The byte behind a quote is a second quote exactly when the next character is.
  have hsecond : ∀ front rest : List Char,
      (bytes (front ++ '\'' :: rest))[utf8Len front + 1]? = some 39 ↔ rest.head? = some '\'' := by
    intro front rest
    have hbyte := byte_iff (front ++ ['\'']) rest (a := '\'') (by decide)
    rw [utf8Len_concat, hquote, List.append_assoc] at hbyte
    exact hbyte
  induction rest using lexString.induct generalizing front s with
  | case1 =>
    rw [skipString]
    split
    next h => rw [charAt_append] at h; cases h
    next h => rfl
    next h => rw [charAt_append] at h; cases h
  | case2 rest ih =>
    have hstep := ih (front ++ ['\'', '\'']) (s ++ ['\''])
    have hlen : utf8Len (front ++ ['\'', '\'']) = utf8Len front + 1 + 1 := by
      rw [utf8Len_append]
      rfl
    rw [hlen, List.append_assoc] at hstep
    rw [skipString_some (charAt_append front _), if_pos rfl, hquote, if_pos ((hsecond _ _).mpr rfl)]
    refine hstep.trans ?_
    rw [lexString, Option.map_map]
    congr 2
    funext r
    simp
  | case3 rest hq =>
    have hone : rest.head? ≠ some '\'' := by
      intro hhead
      obtain ⟨tail, rfl⟩ := List.head?_eq_some_iff.mp hhead
      exact hq tail rfl
    rw [skipString_some (charAt_append front _), if_pos rfl, hquote,
      if_neg (mt (hsecond _ _).mp hone), lexString]
    · have hlen : utf8Len (front ++ '\'' :: rest) = utf8Len front + 1 + utf8Len rest := by
        rw [utf8Len_append, utf8Len_cons, hquote, Nat.add_assoc]
      simp [hlen]
    · exact hq
  | case4 ch rest h₁ h₂ ih =>
    have hstep := ih (front ++ [ch]) (s ++ [ch])
    rw [utf8Len_concat, List.append_assoc] at hstep
    rw [skipString_some (charAt_append front _), if_neg h₂]
    refine hstep.trans ?_
    rw [lexString, Option.map_map]
    · congr 2
      funext r
      simp
    · exact h₁
    · exact h₂

/-! ## The whole -/

theorem operator_plain (c : Char) {next : Option UInt8} (heq : next ≠ some 61)
    (hgt : next ≠ some 62) : operator c next = operator c none := by
  unfold operator
  split <;> simp_all

/-- An operator that looks at the next byte is one that looks at the next character. -/
theorem operator_eq (front rest : List Char) {c : Char} (hc : c = '<' ∨ c = '>' ∨ c = '!') :
    comparison c rest.head? =
      some ((operator c (bytes (front ++ c :: rest))[utf8Len front + 1]?).map
        fun x => (x.1, x.2 - 1)) := by
  have hsize : c.utf8Size = 1 := by rcases hc with rfl | rfl | rfl <;> rfl
  have hbyte : ∀ a : Char, a.toNat < 128 → ((bytes (front ++ c :: rest))[utf8Len front + 1]? =
      some (UInt8.ofNat a.toNat) ↔ rest.head? = some a) := by
    intro a ha
    have hbyte := byte_iff (front ++ [c]) rest ha
    rwa [utf8Len_concat, hsize, List.append_assoc] at hbyte
  generalize (bytes (front ++ c :: rest))[utf8Len front + 1]? = next at hbyte
  by_cases heq : rest.head? = some '='
  · rw [heq, (hbyte '=' (by decide)).mpr heq]
    rcases hc with rfl | rfl | rfl <;> rfl
  by_cases hgt : rest.head? = some '>'
  · rw [hgt, (hbyte '>' (by decide)).mpr hgt]
    rcases hc with rfl | rfl | rfl <;> rfl
  have hplain : comparison c rest.head? = comparison c none := by
    cases hhead : rest.head? with
    | none => rfl
    | some d =>
      rw [hhead] at heq hgt
      exact comparison_plain c (fun h => heq (by rw [h])) (fun h => hgt (by rw [h]))
  rw [hplain, operator_plain c (mt (hbyte '=' (by decide)).mp heq)
    (mt (hbyte '>' (by decide)).mp hgt)]
  rcases hc with rfl | rfl | rfl <;> rfl

theorem operator_length {c : Char} {next : Option UInt8} {tok : Token} {len : Nat}
    (h : operator c next = some (tok, len)) : 1 ≤ len := by
  unfold operator at h
  split at h <;> cases h <;> decide

theorem comparison_none {c : Char} (hc : ¬ (c = '<' ∨ c = '>' ∨ c = '!')) (next : Option Char) :
    comparison c next = none := by
  simp only [not_or] at hc
  simp [comparison, hc]

/-- **The lexer on bytes never panics**, and does what the one on characters does. -/
theorem lexAt_eq (fuel : Nat) (front rest : List Char) (hfuel : rest.length < fuel) :
    lexAt u (front ++ rest) fuel (utf8Len front) = some (lexFrom u rest (utf8Len front)) := by
  induction fuel generalizing front rest with
  | zero => exact absurd hfuel (Nat.not_lt_zero _)
  | succ fuel ih =>
  cases rest with
  | nil =>
    rw [lexAt, if_neg fun h => (utf8Len_lt_iff front []).mp h rfl, lexFrom]
  | cons c rest =>
  -- Behind a token or a space, the loop goes on.
  have hnext : ∀ piece after, c :: rest = piece ++ after → piece ≠ [] →
      lexAt u (front ++ c :: rest) fuel (utf8Len front + utf8Len piece) =
        some (lexFrom u after (utf8Len front + utf8Len piece)) := by
    intro piece after heq hne
    have hlen := List.length_pos_iff.mpr hne
    have hrest := congrArg List.length heq
    rw [List.length_append] at hrest
    have hafter := ih (front ++ piece) after (by omega)
    rwa [utf8Len_append, List.append_assoc, ← heq] at hafter
  have hone : utf8Len [c] = c.utf8Size := by simp [utf8Len]
  rw [lexAt, if_pos ((utf8Len_lt_iff front _).mpr (List.cons_ne_nil c rest)), charAt_append, lexFrom]
  dsimp only [List.head?_cons]
  by_cases hspace : u.isWhitespace c = true
  · rw [if_pos hspace, if_pos hspace, ← hone]
    exact hnext [c] rest rfl (List.cons_ne_nil c [])
  rw [if_neg hspace, if_neg hspace]
  cases hpunct : punctuation c with
  | some tok =>
    have hstep := hnext [c] rest rfl (List.cons_ne_nil c [])
    rw [hone, punctuation_utf8Size hpunct] at hstep
    dsimp only
    rw [hstep]
    rfl
  | none =>
  dsimp only
  by_cases hcmp : c = '<' ∨ c = '>' ∨ c = '!'
  · have hop := operator_eq front rest hcmp
    rw [if_pos hcmp, hop]
    cases hoper : operator c (bytes (front ++ c :: rest))[utf8Len front + 1]? with
    | none => rfl
    | some x =>
      obtain ⟨tok, len⟩ := x
      rw [hoper] at hop
      dsimp only [Option.map_some] at hop
      have hlen := operator_length hoper
      have hsplit : c :: rest = (c :: rest.take (len - 1)) ++ rest.drop (len - 1) :=
        congrArg (c :: ·) (List.take_append_drop (len - 1) rest).symm
      have hpiece : utf8Len (c :: rest.take (len - 1)) = len := by
        have hall := comparison_utf8Len hop
        rw [congrArg utf8Len hsplit, utf8Len_append] at hall
        omega
      have hstep := hnext _ _ hsplit (List.cons_ne_nil _ _)
      rw [hpiece] at hstep
      have hpos : utf8Len front + 1 + (len - 1) = utf8Len front + len := by omega
      dsimp only [Option.map_some]
      rw [hstep, hpos]
      rfl
  rw [if_neg hcmp, comparison_none hcmp]
  dsimp only
  by_cases hquote : c = '\''
  · subst hquote
    have hfound := skipString_eq (front ++ ['\'']) rest []
    have hsize : '\''.utf8Size = 1 := rfl
    rw [utf8Len_concat, hsize, List.append_assoc, List.singleton_append] at hfound
    rw [if_pos rfl, if_pos (beq_self_eq_true _), hfound]
    cases hstr : lexString rest with
    | none => split <;> simp_all
    | some r =>
      obtain ⟨s, after⟩ := r
      obtain ⟨hrest, -⟩ := lexString_eq_some hstr
      have hsplit : '\'' :: rest = ('\'' :: (escapeQuotes s ++ ['\''])) ++ after := by
        rw [hrest]
        simp
      have hstep := hnext _ _ hsplit (List.cons_ne_nil _ _)
      have hlen : utf8Len ('\'' :: rest) - utf8Len after =
          utf8Len ('\'' :: (escapeQuotes s ++ ['\''])) := utf8Len_sub hsplit
      have hend : utf8Len (front ++ '\'' :: rest) - utf8Len after =
          utf8Len front + utf8Len ('\'' :: (escapeQuotes s ++ ['\''])) := by
        rw [utf8Len_append, congrArg utf8Len hsplit, utf8Len_append, ← Nat.add_assoc,
          Nat.add_sub_cancel]
      dsimp only [Option.map_some]
      rw [hend, hstep, hlen]
      rfl
  have hbeq : (c == '\'') = false := beq_eq_false_iff_ne.mpr hquote
  rw [if_neg hquote, hbeq, if_neg Bool.false_ne_true]
  by_cases hdigit : c.isDigit = true
  · have hsplit := cons_takeWhile_append Char.isDigit c rest
    have hds : ∀ d ∈ c :: rest.takeWhile Char.isDigit, d.isDigit = true :=
      List.forall_mem_cons.mpr ⟨hdigit, List.all_eq_true.mp List.all_takeWhile⟩
    have hend := skipDigits_eq front (c :: rest)
    rw [List.takeWhile_cons_of_pos hdigit] at hend
    have hslice := slice_append front (c :: rest.takeWhile Char.isDigit)
      (rest.dropWhile Char.isDigit)
    rw [← hsplit] at hslice
    have hstep := hnext _ _ hsplit (List.cons_ne_nil _ _)
    rw [if_pos hdigit, if_pos hdigit, hend, hslice]
    dsimp only
    rw [utf8Len_append, hstep, utf8Len_of_isDigit hds]
    split <;> rfl
  rw [if_neg hdigit, if_neg hdigit]
  by_cases hstart : (u.isAlphabetic c || c == '_') = true
  · have hword : isWordChar u c = true := by
      rw [isWordChar, Bool.or_right_comm, hstart, Bool.true_or]
    have hsplit := cons_takeWhile_append (isWordChar u) c rest
    have hend := @skipWord_eq u front (c :: rest)
    rw [List.takeWhile_cons_of_pos hword] at hend
    have hslice := slice_append front (c :: rest.takeWhile (isWordChar u))
      (rest.dropWhile (isWordChar u))
    rw [← hsplit] at hslice
    have hstep := hnext _ _ hsplit (List.cons_ne_nil _ _)
    rw [if_pos hstart, if_pos hstart, hend]
    dsimp only
    rw [hslice]
    dsimp only
    rw [utf8Len_append, hstep]
    rfl
  · rw [if_neg hstart, if_neg hstart]

/-- **Every slice that the lexer takes is at character boundaries**, and it is `lex`. -/
theorem lexBytes_eq (input : String) : lexBytes u input = some (lex u input) := by
  have hlength : ∀ cs : List Char, cs.length ≤ utf8Len cs := by
    intro cs
    induction cs with
    | nil => exact le_rfl
    | cons c cs ih =>
      have hsize := c.utf8Size_pos
      rw [utf8Len_cons, List.length_cons]
      omega
  have hall := @lexAt_eq u ((bytes input.toList).length + 1) [] input.toList
    (Nat.lt_succ_of_le (length_bytes input.toList ▸ hlength input.toList))
  exact hall

end Choam
