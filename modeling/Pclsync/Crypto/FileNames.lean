import Pclsync.Crypto.TextCipher
import Pclsync.Text.Base32

/-!
# Encrypted names

The server knows the names in an encrypted folder by the base 32 text of what the folder's encoder
makes of them (`pcloudcrypto.c`).

* `TextCipher.decodeFilename_encodeFilename`: the name is read back, and the text has no characters
  but the 32, so that there is no slash, dot or zero in it.
-/

namespace Pclsync.TextCipher

open Text Text.Base32 Option List

/-- `psync_cloud_crypto_encode_filename`, of the `len` characters at `name`. -/
def encodeFilename (enc : TextCipher) (buff alloc m : Buf) (name len : ℕ) : Option (List UInt8) :=
  let r := enc.encodeText buff alloc m name len
  base32Encode (r.out.bytes 0 r.outlen)

/-- `psync_cloud_crypto_decode_filename`: the name that is returned, `none` inside for `NULL`;
    `mem` is what lies behind the bytes that `psync_base32_decode` returns. -/
def decodeFilename (enc : TextCipher) (buff alloc mem : Buf) (name : List UInt8) :
    Option (Option (List UInt8)) :=
  (base32Decode name).map fun r =>
    match r with
    | .rejected => none
    | .bytes b =>
      (enc.decodeText buff alloc (fun a => b[a]?.getD (mem a)) 0 b.length).map fun dec =>
        dec.bytes 0 (dec.strlen 0 (b.length + 1))

variable {enc : TextCipher} {m alloc buff : Buf} {txt txtlen : ℕ}

/-- The name of a file is read back from its name on the server. -/
theorem decodeFilename_encodeFilename (hpos : 0 < txtlen) (hnul : 0 ∉ m.bytes txt txtlen) :
    ∃ s, enc.encodeFilename buff alloc m txt txtlen = some s ∧ (∀ c ∈ s, c ∈ table) ∧
      ∀ buff' alloc' mem, enc.decodeFilename buff' alloc' mem s =
        some (some (m.bytes txt txtlen)) := by
  obtain ⟨hlen, hwritten⟩ := encodeText_spec enc hpos buff alloc m txt
  rw [encodeFilename]
  generalize enc.encodeText buff alloc m txt txtlen = r at hlen hwritten ⊢
  generalize hb : r.out.bytes 0 r.outlen = b
  obtain ⟨digits, -, henc, -, hlt, -⟩ := exists_base32Encode b
  have hdec := base32Decode_base32Encode b
  rw [henc, bind_some] at hdec
  refine ⟨_, henc, forall_mem_map.2 fun d hd => digit_mem (hlt d hd), ?_⟩
  intro buff' alloc' mem
  have hsize : b.length = 16 * ((txtlen + 15) / 16) := by
    rw [← hb, Buf.bytes, length_map, length_range, hlen]
  have hne : ∀ i < txtlen, m (txt + i) ≠ 0 := fun i hi hzero =>
    hnul (mem_map.2 ⟨i, mem_range.2 hi, hzero⟩)
  rw [decodeFilename, hdec, map_some]
  dsimp only
  rw [hsize]
  -- the chain of blocks lies at the address 0
  have hholds : Holds enc (enc.start m txt txtlen) (padded m txt txtlen)
      (fun a => b[a]?.getD (mem a)) 0 ((txtlen + 15) / 16) := by
    intro j hj
    rw [← hwritten.blocks j hj]
    refine Buf.block_congr fun i hi => ?_
    rw [getElem?_eq_getElem (by omega), getD_some]
    simp [← hb, Buf.bytes]
  generalize (fun a => b[a]?.getD (mem a)) = c at hholds ⊢
  have hret : ∃ ret, enc.decodeText buff' alloc' c 0 (16 * ((txtlen + 15) / 16)) = some ret ∧
      ReadBack m txt txtlen alloc' ret := by
    rw [start] at hholds
    split at hholds
    · have hcount : (txtlen + 15) / 16 = 1 := by omega
      rw [hcount] at hholds ⊢
      exact decodeText_short hpos ‹_› hne hholds buff' alloc'
    · exact decodeText_long (Nat.not_le.1 ‹_›) hne hholds buff' alloc'
  obtain ⟨ret, heq, hback⟩ := hret
  have htext : ∀ i < txtlen, ret (0 + i) = m (txt + i) := fun i hi => by
    rw [Nat.zero_add, hback.text i hi]
  have hstrlen : ret.strlen 0 (16 * ((txtlen + 15) / 16) + 1) = txtlen := by
    refine strlen_eq (by omega) (fun i hi => htext i hi ▸ hne i hi) ?_
    rw [Nat.zero_add]
    exact hback.zeros txtlen le_rfl (by omega)
  rw [heq, map_some, hstrlen, Buf.bytes_congr htext]

/-- A name of one letter. -/
theorem decodeFilename_encodeFilename_letter : ∃ (enc : TextCipher) (s : List UInt8),
    enc.encodeFilename (fun _ => 3) (fun _ => 4) (fun _ => 65) 7 1 = some s ∧ (∀ c ∈ s, c ∈ table) ∧
      ∀ buff' alloc' mem, enc.decodeFilename buff' alloc' mem s = some (some [65]) :=
  ⟨⟨Equiv.refl Block, fun _ => 1, 16, le_rfl, fun _ _ _ => 2⟩,
    decodeFilename_encodeFilename (m := fun _ => 65) (by decide) (by decide)⟩

end Pclsync.TextCipher
