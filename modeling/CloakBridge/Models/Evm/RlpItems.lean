import CloakBridge.Models.Evm.Rlp

/-!
# What the RLP decoder reads

A header says how many bytes follow. `Header` and `Items` describe the headers and the
items that the decoder accepts, wherever their bytes lie; sizes are counted in 64 bits,
as in the source. Whatever the encoder wrote is read back, item by item.
-/

namespace CloakBridge.Evm.Rlp

open BitVec

open Tee (Error toByteString)

/-- The memory holds the bytes from a position on. -/
def Holds (memory : Nat → UInt8) (i : Nat) (bytes : ByteString) : Prop :=
  bytesAt memory i bytes.length = bytes

variable {kinds : List Kind} {items : List ByteString} {input : ByteString} {beyond : Nat → UInt8}

@[simp] theorem length_bytesAt (memory : Nat → UInt8) (i size : Nat) :
    (bytesAt memory i size).length = size := by
  simp [bytesAt]

private theorem bytesAt_add (memory : Nat → UInt8) (i m n : Nat) :
    bytesAt memory i (m + n) = bytesAt memory i m ++ bytesAt memory (i + m) n := by
  simp [bytesAt, List.range_add, Nat.add_assoc, Function.comp_def]

section Items

variable {memory : Nat → UInt8} {c c' : Cursor} {arity : Arity} {i n : Nat} {b : UInt8}
  {arity' : Arity} {kind : Kind} {item : ByteString}

private theorem holds_append {xs ys : ByteString} :
    Holds memory i (xs ++ ys) ↔ Holds memory i xs ∧ Holds memory (i + xs.length) ys := by
  unfold Holds
  rw [List.length_append, bytesAt_add]
  constructor
  · intro h
    exact List.append_inj h (length_bytesAt _ _ _)
  · rintro ⟨hxs, hys⟩
    rw [hxs, hys]

private theorem holds_singleton : Holds memory i [b] ↔ memory i = b := by
  simp [Holds, bytesAt]

private theorem holds_cons {bytes : ByteString} :
    Holds memory i (b :: bytes) ↔ memory i = b ∧ Holds memory (i + 1) bytes := by
  rw [← List.singleton_append, holds_append, holds_singleton, List.length_singleton]

/-- What is added to a length of at most 55. -/
def Arity.short : Arity → Nat
  | .single => 0x80
  | .multiple => 0xc0

/-- What is added to the length of a longer length. -/
def Arity.long (arity : Arity) : Nat := arity.short + 55

/-- Move a cursor past some bytes. -/
def Cursor.skip (c : Cursor) (n : Nat) : Cursor := ⟨c.data + n, c.size - BitVec.ofNat 64 n⟩

private theorem Cursor.skip_skip (c : Cursor) (m n : Nat) : (c.skip m).skip n = c.skip (m + n) := by
  simp [skip, Nat.add_assoc, ofNat_add, sub_sub]

/-- A header of an item or a list: the length of what follows, and where it begins. -/
inductive Header (memory : Nat → UInt8) (c : Cursor) : Arity → Nat → Cursor → Prop
  | byte (h : (memory c.data).toNat ≤ 0x7f) : Header memory c .single 1 c
  | short (arity : Arity) (n : Nat) (hn : n ≤ 55) (h : (memory c.data).toNat = arity.short + n) :
    Header memory c arity n (c.skip 1)
  | long (arity : Arity) (k : Nat) (hpos : 1 ≤ k) (hk : k ≤ 8)
      (h : (memory c.data).toNat = arity.long + k) (hsize : k ≤ (c.skip 1).size.toNat) :
    Header memory c arity (fromBigEndian (bytesAt memory (c.data + 1) k)) ((c.skip 1).skip k)

private theorem pure_header_eq_ok {n' : Nat} :
    (pure (arity, n, c) : Except Error (Arity × Nat × Cursor)) = .ok (arity', n', c') ↔
      arity = arity' ∧ n = n' ∧ c = c' := by
  simp [pure, Except.pure]

private theorem decodeLongLength_eq_ok {k : Nat} :
    decodeLongLength memory c arity k = .ok (arity', n, c') ↔
      k ≤ c.size.toNat ∧ arity = arity' ∧ fromBigEndian (bytesAt memory c.data k) = n ∧
        c.skip k = c' := by
  rw [decodeLongLength]
  by_cases hk : c.size.toNat < k
  · simp [hk, Nat.not_le.mpr hk]
  · rw [if_neg hk, and_iff_right (Nat.not_lt.mp hk)]
    exact pure_header_eq_ok

/-- The decoder accepts these headers and no others. -/
theorem decodeLength_eq_ok :
    decodeLength memory c = .ok (arity, n, c') ↔ c.size ≠ 0 ∧ Header memory c arity n c' := by
  have hbyte := (memory c.data).toNat_lt
  by_cases hsize : c.size = 0
  · simp [decodeLength, hsize]
  rw [and_iff_right hsize, decodeLength, if_neg hsize]
  dsimp only
  constructor
  · intro h
    by_cases hlow : (memory c.data).toNat ≤ 0x7f
    · rw [if_pos hlow, pure_header_eq_ok] at h
      obtain ⟨rfl, rfl, rfl⟩ := h
      exact .byte hlow
    rw [if_neg hlow] at h
    by_cases hshort : (memory c.data).toNat ≤ 0xb7
    · rw [if_pos hshort, pure_header_eq_ok] at h
      obtain ⟨rfl, rfl, rfl⟩ := h
      apply Header.short .single
      · omega
      · simp only [Arity.short]
        omega
    rw [if_neg hshort] at h
    by_cases hlong : (memory c.data).toNat ≤ 0xbf
    · rw [if_pos hlong, decodeLongLength_eq_ok] at h
      obtain ⟨hk, rfl, rfl, rfl⟩ := h
      apply Header.long .single _ _ _ _ hk
      · omega
      · omega
      · simp only [Arity.long, Arity.short]
        omega
    rw [if_neg hlong] at h
    by_cases hlist : (memory c.data).toNat ≤ 0xf7
    · rw [if_pos hlist, pure_header_eq_ok] at h
      obtain ⟨rfl, rfl, rfl⟩ := h
      apply Header.short .multiple
      · omega
      · simp only [Arity.short]
        omega
    · rw [if_neg hlist, decodeLongLength_eq_ok] at h
      obtain ⟨hk, rfl, rfl, rfl⟩ := h
      apply Header.long .multiple _ _ _ _ hk
      · omega
      · omega
      · simp only [Arity.long, Arity.short]
        omega
  · intro h
    cases h with
    | byte h => rw [if_pos h]; rfl
    | short arity n hn h =>
      cases arity with
      | single =>
        simp only [Arity.short] at h
        rw [if_neg (by omega), if_pos (by omega), h, Nat.add_sub_cancel_left]
        rfl
      | multiple =>
        simp only [Arity.short] at h
        rw [if_neg (by omega), if_neg (by omega), if_neg (by omega), if_pos (by omega), h,
          Nat.add_sub_cancel_left]
        rfl
    | long arity k hpos hk h hsize =>
      cases arity with
      | single =>
        simp only [Arity.long, Arity.short] at h
        rw [if_neg (by omega), if_neg (by omega), if_pos (by omega), h,
          show 0x80 + 55 + k - 0xb7 = k by omega, decodeLongLength_eq_ok]
        exact ⟨hsize, rfl, rfl, rfl⟩
      | multiple =>
        simp only [Arity.long, Arity.short] at h
        rw [if_neg (by omega), if_neg (by omega), if_neg (by omega), if_neg (by omega), h,
          show 0xc0 + 55 + k - 0xf7 = k by omega, decodeLongLength_eq_ok]
        exact ⟨hsize, rfl, rfl, rfl⟩

/-- A length in front of a payload, as the encoder writes it. -/
def withLength (arity : Arity) (payload : ByteString) : ByteString :=
  prefixLength arity.short arity.long payload

private theorem length_sizeBytes (h : n < 2 ^ 256) : (sizeBytes n).length = significantBytes n := by
  rw [sizeBytes, Tee.length_toByteString, toNat_ofNat, Nat.mod_eq_of_lt h]

/-- A number is read back from its bytes. -/
theorem fromBigEndian_sizeBytes (h : n < 2 ^ 256) : fromBigEndian (sizeBytes n) = n := by
  rw [sizeBytes, Tee.fromBigEndian_toByteString, toNat_ofNat, Nat.mod_eq_of_lt h]

private theorem significantBytes_pos (h : n ≠ 0) : 1 ≤ significantBytes n := by
  simp [significantBytes, h]

/-- A number of 64 bits has at most eight bytes. -/
theorem length_sizeBytes_le (h : n < 2 ^ 64) : (sizeBytes n).length ≤ 8 := by
  rw [length_sizeBytes (by omega), significantBytes_le_iff]
  omega

/-- The decoder finds the header of what the encoder wrote, and the payload behind it. -/
theorem exists_header_withLength {payload : ByteString}
    (hheld : Holds memory c.data (withLength arity payload))
    (hsize : (withLength arity payload).length ≤ c.size.toNat) :
    ∃ h, h + payload.length = (withLength arity payload).length ∧
      Header memory c arity payload.length (c.skip h) ∧ Holds memory (c.data + h) payload := by
  have hbound := c.size.isLt
  rw [withLength, prefixLength] at hheld hsize ⊢
  by_cases hshort : payload.length ≤ 55
  · rw [if_pos hshort] at hheld hsize ⊢
    obtain ⟨hhead, hpayload⟩ := holds_cons.mp hheld
    have hlength : (memory c.data).toNat = arity.short + payload.length := by
      rw [hhead, UInt8.toNat_ofNat', Nat.mod_eq_of_lt]
      cases arity <;> simp only [Arity.short] <;> omega
    exact ⟨1, by simp [Nat.add_comm], .short arity _ hshort hlength, hpayload⟩
  · rw [if_neg hshort] at hheld hsize ⊢
    dsimp only at hheld hsize ⊢
    rw [List.cons_append] at hheld hsize ⊢
    rw [List.length_cons, List.length_append] at hsize ⊢
    have hk : (sizeBytes payload.length).length ≤ 8 := length_sizeBytes_le (by omega)
    have hpos : 1 ≤ (sizeBytes payload.length).length := by
      rw [length_sizeBytes (by omega)]
      exact significantBytes_pos (by omega)
    obtain ⟨hhead, hrest⟩ := holds_cons.mp hheld
    obtain ⟨hlength, hpayload⟩ := holds_append.mp hrest
    have hlong : (memory c.data).toNat = arity.long + (sizeBytes payload.length).length := by
      rw [hhead, UInt8.toNat_ofNat', Nat.mod_eq_of_lt]
      cases arity <;> simp only [Arity.long, Arity.short] <;> omega
    have hleft : (sizeBytes payload.length).length ≤ (c.skip 1).size.toNat := by
      simp only [Cursor.skip, toNat_sub, toNat_ofNat]
      omega
    have hheader := Header.long arity _ hpos hk hlong hleft
    rw [hlength, fromBigEndian_sizeBytes (by omega), Cursor.skip_skip] at hheader
    rw [Nat.add_assoc] at hpayload
    exact ⟨_, by omega, hheader, hpayload⟩

/-- Single items that follow one another. What is left of the list is only compared with zero. -/
inductive Items (memory : Nat → UInt8) : Cursor → List Kind → List ByteString → Prop
  | nil (c : Cursor) : Items memory c [] []
  | cons {c c' : Cursor} {kind : Kind} {n : Nat} {kinds : List Kind} {rest : List ByteString}
      (hsize : c.size ≠ 0) (hheader : Header memory c .single n c') (hn : kind.Accepts n)
      (hrest : Items memory (c'.skip n) kinds rest) :
    Items memory c (kind :: kinds) (bytesAt memory c'.data n :: rest)

/-- Behind items that are read, a `ByteString` announces more bytes than its loop can count. -/
inductive Hangs (memory : Nat → UInt8) : Cursor → List Kind → Prop
  | here {c c' : Cursor} {n : Nat} {kinds : List Kind} (hsize : c.size ≠ 0)
      (hheader : Header memory c .single n c') (hlong : 2 ^ 32 ≤ n) (hmax : n < 2 ^ 63) :
    Hangs memory c (.bytes :: kinds)
  | later {c c' : Cursor} {kind : Kind} {n : Nat} {kinds : List Kind} (hsize : c.size ≠ 0)
      (hheader : Header memory c .single n c') (hn : kind.Accepts n)
      (hrest : Hangs memory (c'.skip n) kinds) : Hangs memory c (kind :: kinds)

private theorem Items.accepts (h : Items memory c kinds items) :
    List.Forall₂ (fun kind item => Kind.Accepts kind item.length) kinds items := by
  induction h with
  | nil => exact .nil
  | cons _ _ hn _ ih => exact .cons (by rwa [length_bytesAt]) ih

private theorem failure_eq_endless :
    ¬kind.Accepts n ∧ kind.failure n = .endless ↔ kind = .bytes ∧ 2 ^ 32 ≤ n ∧ n < 2 ^ 63 := by
  cases kind <;> simp [Kind.Accepts, Kind.failure]

/-- No header makes the decoder hang. -/
private theorem decodeLength_ne_endless : decodeLength memory c ≠ .error .endless := by
  simp only [decodeLength, decodeLongLength]
  repeat' split
  all_goals simp [throw, throwThe, MonadExceptOf.throw, pure, Except.pure]

private theorem decodeSingle_eq_ok : decodeSingle memory kind c = .ok (item, c') ↔
      c.size ≠ 0 ∧ ∃ n start, Header memory c .single n start ∧ kind.Accepts n ∧
        bytesAt memory start.data n = item ∧ start.skip n = c' := by
  rw [decodeSingle, except_bind_eq_ok]
  constructor
  · rintro ⟨⟨arity, n, start⟩, hlength, hitem⟩
    obtain ⟨hsize, hheader⟩ := decodeLength_eq_ok.mp hlength
    cases arity with
    | multiple => cases hitem
    | single =>
      dsimp only at hitem
      rw [if_neg (by decide)] at hitem
      split at hitem
      · cases hitem
      next hn =>
        cases hitem
        exact ⟨hsize, n, start, hheader, not_not.mp hn, rfl, rfl⟩
  · rintro ⟨hsize, n, start, hheader, hn, rfl, rfl⟩
    refine ⟨_, decodeLength_eq_ok.mpr ⟨hsize, hheader⟩, ?_⟩
    dsimp only
    rw [if_neg (by decide), if_neg (not_not.mpr hn)]
    rfl

private theorem decodeSingle_eq_endless : decodeSingle memory kind c = .error .endless ↔
      c.size ≠ 0 ∧ ∃ n start, Header memory c .single n start ∧ ¬kind.Accepts n ∧
        kind.failure n = .endless := by
  rw [decodeSingle, except_bind_eq_error, or_iff_right decodeLength_ne_endless]
  constructor
  · rintro ⟨⟨arity, n, start⟩, hlength, hitem⟩
    obtain ⟨hsize, hheader⟩ := decodeLength_eq_ok.mp hlength
    cases arity with
    | multiple => cases hitem
    | single =>
      dsimp only at hitem
      rw [if_neg (by decide)] at hitem
      split at hitem
      next hn => exact ⟨hsize, n, start, hheader, hn, Except.error.inj hitem⟩
      · cases hitem
  · rintro ⟨hsize, n, start, hheader, hn, hfailure⟩
    refine ⟨_, decodeLength_eq_ok.mpr ⟨hsize, hheader⟩, ?_⟩
    dsimp only
    rw [if_neg (by decide), if_pos hn, hfailure]
    rfl

private theorem decodeMultiple_eq_ok :
    decodeMultiple memory kinds c = .ok items ↔ Items memory c kinds items := by
  induction kinds generalizing c items with
  | nil =>
    constructor
    · intro h
      cases h
      exact .nil c
    · intro h
      cases h
      rfl
  | cons kind kinds ih =>
    rw [decodeMultiple, except_bind_eq_ok]
    constructor
    · rintro ⟨⟨item, next⟩, hitem, hdecode⟩
      obtain ⟨rest, hrest, hitems⟩ := except_bind_eq_ok.mp hdecode
      obtain ⟨hsize, n, start, hheader, hn, rfl, rfl⟩ := decodeSingle_eq_ok.mp hitem
      cases hitems
      exact .cons hsize hheader hn (ih.mp hrest)
    · intro hitems
      cases hitems with
      | cons hsize hheader hn hrest =>
        refine ⟨_, decodeSingle_eq_ok.mpr ⟨hsize, _, _, hheader, hn, rfl, rfl⟩, ?_⟩
        exact except_bind_eq_ok.mpr ⟨_, ih.mpr hrest, rfl⟩

private theorem decodeMultiple_eq_endless :
    decodeMultiple memory kinds c = .error .endless ↔ Hangs memory c kinds := by
  induction kinds generalizing c with
  | nil => exact ⟨fun h => (by cases h), fun h => (by cases h)⟩
  | cons kind kinds ih =>
    rw [decodeMultiple, except_bind_eq_error]
    constructor
    · rintro (hitem | ⟨⟨item, next⟩, hitem, hdecode⟩)
      · obtain ⟨hsize, n, start, hheader, hn⟩ := decodeSingle_eq_endless.mp hitem
        obtain ⟨rfl, hlong, hmax⟩ := failure_eq_endless.mp hn
        exact .here hsize hheader hlong hmax
      · obtain ⟨hsize, n, start, hheader, hn, rfl, rfl⟩ := decodeSingle_eq_ok.mp hitem
        rcases except_bind_eq_error.mp hdecode with hrest | ⟨rest, -, hpure⟩
        · exact .later hsize hheader hn (ih.mp hrest)
        · cases hpure
    · intro h
      cases h with
      | here hsize hheader hlong hmax =>
        have hn := failure_eq_endless.mpr ⟨rfl, hlong, hmax⟩
        exact .inl (decodeSingle_eq_endless.mpr ⟨hsize, _, _, hheader, hn⟩)
      | later hsize hheader hn hrest =>
        refine .inr ⟨_, decodeSingle_eq_ok.mpr ⟨hsize, _, _, hheader, hn, rfl, rfl⟩, ?_⟩
        exact except_bind_eq_error.mpr (.inl (ih.mpr hrest))

/-- Only a low byte is written without a length. -/
theorem encodeSingle_cases (item : ByteString) : encodeSingle item = withLength .single item ∨
      ∃ b, b ≤ 0x7f ∧ item = [b] ∧ encodeSingle item = [b] := by
  match item with
  | [] => exact .inl rfl
  | [b] =>
    by_cases hb : b ≤ 0x7f
    · exact .inr ⟨b, hb, rfl, if_pos hb⟩
    · exact .inl (if_neg hb)
  | _ :: _ :: _ => exact .inl rfl

/-- The decoder reads an item that the encoder wrote, and stops behind it. -/
theorem exists_header_encodeSingle (hheld : Holds memory c.data (encodeSingle item))
    (hsize : (encodeSingle item).length ≤ c.size.toNat) :
    ∃ n start, Header memory c .single n start ∧ bytesAt memory start.data n = item ∧
      start.skip n = c.skip (encodeSingle item).length := by
  rcases encodeSingle_cases item with hitem | ⟨b, hb, rfl, hitem⟩ <;> rw [hitem] at hheld hsize ⊢
  · obtain ⟨k, hk, hheader, hpayload⟩ := exists_header_withLength hheld hsize
    exact ⟨item.length, c.skip k, hheader, hpayload, by rw [Cursor.skip_skip, hk]⟩
  · have hbyte := holds_singleton.mp hheld
    have hlow : (memory c.data).toNat ≤ 0x7f := by
      rw [hbyte]
      exact hb
    exact ⟨1, c, .byte hlow, hheld, rfl⟩

private theorem encodeSingle_ne_nil (item : ByteString) : encodeSingle item ≠ [] := by
  rcases encodeSingle_cases item with hitem | ⟨b, -, -, hitem⟩ <;> rw [hitem]
  · rw [withLength, prefixLength]
    split <;> simp
  · simp

private theorem Cursor.size_skip (h : n ≤ c.size.toNat) :
    (c.skip n).size.toNat = c.size.toNat - n := by
  have hbound := c.size.isLt
  simp only [skip, toNat_sub, toNat_ofNat]
  omega

private theorem Cursor.size_ne_zero (h : 0 < c.size.toNat) : c.size ≠ 0 := by
  intro hzero
  rw [hzero] at h
  cases h

private theorem items_of_holds
    (hkinds : List.Forall₂ (fun kind item => Kind.Accepts kind item.length) kinds items)
    (hheld : Holds memory c.data (items.flatMap encodeSingle))
    (hsize : (items.flatMap encodeSingle).length ≤ c.size.toNat) : Items memory c kinds items := by
  induction hkinds generalizing c with
  | nil => exact .nil c
  | cons hkind _ ih =>
    rw [List.flatMap_cons] at hheld hsize
    rw [List.length_append] at hsize
    obtain ⟨hitem, hrest⟩ := holds_append.mp hheld
    obtain ⟨n, start, hheader, rfl, hskip⟩ := exists_header_encodeSingle hitem (by omega)
    have hpos := List.length_pos_iff.mpr (encodeSingle_ne_nil (bytesAt memory start.data n))
    rw [length_bytesAt] at hkind
    apply Items.cons (Cursor.size_ne_zero (by omega)) hheader hkind
    rw [hskip]
    apply ih hrest
    rw [Cursor.size_skip (by omega)]
    omega

end Items

private theorem holds_memory (input : ByteString) (beyond : Nat → UInt8) :
    Holds (memory input beyond) 0 input := by
  apply List.ext_getElem
  · simp
  · intro j hj hj'
    simp [bytesAt, memory, hj']

/-- The input is read as a list of these single items. -/
def Reads (kinds : List Kind) (input : ByteString) (beyond : Nat → UInt8)
    (items : List ByteString) : Prop :=
  let size := BitVec.ofNat 64 input.length
  size ≠ 0 ∧ ∃ n start, Header (memory input beyond) ⟨0, size⟩ .multiple n start ∧
    (start.skip n).size = 0 ∧
      Items (memory input beyond) ⟨start.data, BitVec.ofNat 64 n⟩ kinds items

/-- The input is a list in which the decoder does not come to an end. -/
def HangsOn (kinds : List Kind) (input : ByteString) (beyond : Nat → UInt8) : Prop :=
  let size := BitVec.ofNat 64 input.length
  size ≠ 0 ∧ ∃ n start, Header (memory input beyond) ⟨0, size⟩ .multiple n start ∧
    Hangs (memory input beyond) ⟨start.data, BitVec.ofNat 64 n⟩ kinds

/-- The items that were read are as long as their types allow. -/
theorem Reads.accepts (h : Reads kinds input beyond items) :
    List.Forall₂ (fun kind item => Kind.Accepts kind item.length) kinds items := by
  obtain ⟨-, n, start, -, -, hitems⟩ := h
  exact hitems.accepts

/-- As many items are read as are asked for. -/
theorem Reads.length_eq (h : Reads kinds input beyond items) : items.length = kinds.length :=
  h.accepts.length_eq.symm

/-- The decoder returns the items that the input is read as. -/
theorem decode_eq_ok : decode kinds input beyond = .ok items ↔ Reads kinds input beyond items := by
  rw [decode]
  dsimp only
  rw [except_bind_eq_ok]
  constructor
  · rintro ⟨⟨arity, n, start⟩, hlength, hlist⟩
    obtain ⟨hsize, hheader⟩ := decodeLength_eq_ok.mp hlength
    cases arity with
    | single => cases hlist
    | multiple =>
      obtain ⟨items', hitems, hleft⟩ := except_bind_eq_ok.mp hlist
      dsimp only at hleft
      split at hleft
      · cases hleft
      next hzero =>
        cases hleft
        exact ⟨hsize, n, start, hheader, not_not.mp hzero, decodeMultiple_eq_ok.mp hitems⟩
  · rintro ⟨hsize, n, start, hheader, hzero, hitems⟩
    refine ⟨_, decodeLength_eq_ok.mpr ⟨hsize, hheader⟩, ?_⟩
    apply except_bind_eq_ok.mpr
    exact ⟨items, decodeMultiple_eq_ok.mpr hitems, if_neg (not_not.mpr hzero)⟩

/-- The decoder does not return exactly where one of the items hangs. -/
theorem decode_eq_endless :
    decode kinds input beyond = .error .endless ↔ HangsOn kinds input beyond := by
  rw [decode]
  dsimp only
  rw [except_bind_eq_error, or_iff_right decodeLength_ne_endless]
  constructor
  · rintro ⟨⟨arity, n, start⟩, hlength, hlist⟩
    obtain ⟨hsize, hheader⟩ := decodeLength_eq_ok.mp hlength
    cases arity with
    | single => cases hlist
    | multiple =>
      rcases except_bind_eq_error.mp hlist with hitems | ⟨items, -, hleft⟩
      · exact ⟨hsize, n, start, hheader, decodeMultiple_eq_endless.mp hitems⟩
      · split at hleft <;> cases hleft
  · rintro ⟨hsize, n, start, hheader, hitems⟩
    refine ⟨_, decodeLength_eq_ok.mpr ⟨hsize, hheader⟩, ?_⟩
    exact except_bind_eq_error.mpr (.inl (decodeMultiple_eq_endless.mpr hitems))

/-- What the encoder wrote is read back, whatever lies behind it. -/
theorem reads_encode
    (hkinds : List.Forall₂ (fun kind item => Kind.Accepts kind item.length) kinds items)
    (beyond : Nat → UInt8) (hsize : (encode items).length < 2 ^ 64) :
    Reads kinds (encode items) beyond items := by
  let c : Cursor := ⟨0, BitVec.ofNat 64 (encode items).length⟩
  have hencode : encode items = withLength .multiple (items.flatMap encodeSingle) := rfl
  have hcount : c.size.toNat = (encode items).length := by
    simp only [c, toNat_ofNat, Nat.mod_eq_of_lt hsize]
  have hheld : Holds (memory (encode items) beyond) c.data
      (withLength .multiple (items.flatMap encodeSingle)) := holds_memory (encode items) beyond
  obtain ⟨k, hk, hheader, hpayload⟩ := exists_header_withLength hheld hcount.ge
  rw [← hencode] at hk
  have hpos : 0 < (encode items).length := by
    rw [hencode, withLength, prefixLength]
    split <;> simp
  refine ⟨?_, _, _, hheader, ?_, items_of_holds hkinds hpayload ?_⟩
  · exact Cursor.size_ne_zero (hcount ▸ hpos)
  · rw [Cursor.skip_skip, hk]
    exact sub_self _
  · rw [toNat_ofNat, Nat.mod_eq_of_lt (by omega)]

/-- A word has at most 32 bytes. -/
theorem length_toByteString_le (w : Word) : (toByteString w).length ≤ 32 := by
  rw [Tee.length_toByteString, significantBytes_le_iff]
  exact w.isLt

/-- A word is read back from its bytes. -/
theorem word_toByteString (w : Word) : word (toByteString w) = w := by
  rw [word, Tee.fromBigEndian_toByteString, ofNat_toNat, setWidth_eq]

end CloakBridge.Evm.Rlp
