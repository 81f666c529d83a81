import OpenWatcom.Lib.TableCrc
import OpenWatcom.Wpack.NoShannon

/-!
# The checksum of a file: `wpackio.c`, `decode.c`

* `calcCrc`, `getCrc`, `modifyCrc`, `checkCrc`     `CALC_CRC` and the calls around it
* `compareCrc`     `CompareCRC`: what has been read ahead goes into both checksums
* `readAhead_reading`     and is given back: reading stands behind the bits of the file again
* `checkCrc_iff`     `CheckCRC` takes the checksum of what has been read and no other one
* `compareCrc_stretch`     so what stands behind the bits of a file does not count
-/

namespace Wpack

open TableCrc

/-- `CRCTable` -/
def crcTable : List ℕ := [
  0x00000000, 0x77073096, 0xee0e612c, 0x990951ba, 0x076dc419, 0x706af48f, 0xe963a535, 0x9e6495a3,
  0x0edb8832, 0x79dcb8a4, 0xe0d5e91e, 0x97d2d988, 0x09b64c2b, 0x7eb17cbd, 0xe7b82d07, 0x90bf1d91,
  0x1db71064, 0x6ab020f2, 0xf3b97148, 0x84be41de, 0x1adad47d, 0x6ddde4eb, 0xf4d4b551, 0x83d385c7,
  0x136c9856, 0x646ba8c0, 0xfd62f97a, 0x8a65c9ec, 0x14015c4f, 0x63066cd9, 0xfa0f3d63, 0x8d080df5,
  0x3b6e20c8, 0x4c69105e, 0xd56041e4, 0xa2677172, 0x3c03e4d1, 0x4b04d447, 0xd20d85fd, 0xa50ab56b,
  0x35b5a8fa, 0x42b2986c, 0xdbbbc9d6, 0xacbcf940, 0x32d86ce3, 0x45df5c75, 0xdcd60dcf, 0xabd13d59,
  0x26d930ac, 0x51de003a, 0xc8d75180, 0xbfd06116, 0x21b4f4b5, 0x56b3c423, 0xcfba9599, 0xb8bda50f,
  0x2802b89e, 0x5f058808, 0xc60cd9b2, 0xb10be924, 0x2f6f7c87, 0x58684c11, 0xc1611dab, 0xb6662d3d,
  0x76dc4190, 0x01db7106, 0x98d220bc, 0xefd5102a, 0x71b18589, 0x06b6b51f, 0x9fbfe4a5, 0xe8b8d433,
  0x7807c9a2, 0x0f00f934, 0x9609a88e, 0xe10e9818, 0x7f6a0dbb, 0x086d3d2d, 0x91646c97, 0xe6635c01,
  0x6b6b51f4, 0x1c6c6162, 0x856530d8, 0xf262004e, 0x6c0695ed, 0x1b01a57b, 0x8208f4c1, 0xf50fc457,
  0x65b0d9c6, 0x12b7e950, 0x8bbeb8ea, 0xfcb9887c, 0x62dd1ddf, 0x15da2d49, 0x8cd37cf3, 0xfbd44c65,
  0x4db26158, 0x3ab551ce, 0xa3bc0074, 0xd4bb30e2, 0x4adfa541, 0x3dd895d7, 0xa4d1c46d, 0xd3d6f4fb,
  0x4369e96a, 0x346ed9fc, 0xad678846, 0xda60b8d0, 0x44042d73, 0x33031de5, 0xaa0a4c5f, 0xdd0d7cc9,
  0x5005713c, 0x270241aa, 0xbe0b1010, 0xc90c2086, 0x5768b525, 0x206f85b3, 0xb966d409, 0xce61e49f,
  0x5edef90e, 0x29d9c998, 0xb0d09822, 0xc7d7a8b4, 0x59b33d17, 0x2eb40d81, 0xb7bd5c3b, 0xc0ba6cad,
  0xedb88320, 0x9abfb3b6, 0x03b6e20c, 0x74b1d29a, 0xead54739, 0x9dd277af, 0x04db2615, 0x73dc1683,
  0xe3630b12, 0x94643b84, 0x0d6d6a3e, 0x7a6a5aa8, 0xe40ecf0b, 0x9309ff9d, 0x0a00ae27, 0x7d079eb1,
  0xf00f9344, 0x8708a3d2, 0x1e01f268, 0x6906c2fe, 0xf762575d, 0x806567cb, 0x196c3671, 0x6e6b06e7,
  0xfed41b76, 0x89d32be0, 0x10da7a5a, 0x67dd4acc, 0xf9b9df6f, 0x8ebeeff9, 0x17b7be43, 0x60b08ed5,
  0xd6d6a3e8, 0xa1d1937e, 0x38d8c2c4, 0x4fdff252, 0xd1bb67f1, 0xa6bc5767, 0x3fb506dd, 0x48b2364b,
  0xd80d2bda, 0xaf0a1b4c, 0x36034af6, 0x41047a60, 0xdf60efc3, 0xa867df55, 0x316e8eef, 0x4669be79,
  0xcb61b38c, 0xbc66831a, 0x256fd2a0, 0x5268e236, 0xcc0c7795, 0xbb0b4703, 0x220216b9, 0x5505262f,
  0xc5ba3bbe, 0xb2bd0b28, 0x2bb45a92, 0x5cb36a04, 0xc2d7ffa7, 0xb5d0cf31, 0x2cd99e8b, 0x5bdeae1d,
  0x9b64c2b0, 0xec63f226, 0x756aa39c, 0x026d930a, 0x9c0906a9, 0xeb0e363f, 0x72076785, 0x05005713,
  0x95bf4a82, 0xe2b87a14, 0x7bb12bae, 0x0cb61b38, 0x92d28e9b, 0xe5d5be0d, 0x7cdcefb7, 0x0bdbdf21,
  0x86d3d2d4, 0xf1d4e242, 0x68ddb3f8, 0x1fda836e, 0x81be16cd, 0xf6b9265b, 0x6fb077e1, 0x18b74777,
  0x88085ae6, 0xff0f6a70, 0x66063bca, 0x11010b5c, 0x8f659eff, 0xf862ae69, 0x616bffd3, 0x166ccf45,
  0xa00ae278, 0xd70dd2ee, 0x4e048354, 0x3903b3c2, 0xa7672661, 0xd06016f7, 0x4969474d, 0x3e6e77db,
  0xaed16a4a, 0xd9d65adc, 0x40df0b66, 0x37d83bf0, 0xa9bcae53, 0xdebb9ec5, 0x47b2cf7f, 0x30b5ffe9,
  0xbdbdf21c, 0xcabac28a, 0x53b39330, 0x24b4a3a6, 0xbad03605, 0xcdd70693, 0x54de5729, 0x23d967bf,
  0xb3667a2e, 0xc4614ab8, 0x5d681b02, 0x2a6f2b94, 0xb40bbe37, 0xc30c8ea1, 0x5a05df1b, 0x2d02ef8d]

def crcEntry (i : BitVec 8) : BitVec 32 := BitVec.ofNat 32 (crcTable.getD i.toNat 0)

/-- `CALC_CRC` -/
def calcCrc (crc : BitVec 32) (data : UInt8) : BitVec 32 := byteStep crcEntry crc data.toBitVec

/-- `CRC` after bytes that have been read or written since `GetCRC` or `CheckCRC` -/
def crcOf (data : List UInt8) : BitVec 32 := data.foldl calcCrc 0xFFFFFFFF

def getCrc (crc : BitVec 32) : BitVec 32 := ~~~ crc

def modifyCrc (value : BitVec 32) (data : UInt8) : BitVec 32 := ~~~ calcCrc (~~~ value) data

/-- `GOOD_CRC` -/
def goodCrc : BitVec 32 := 0xDEBB20E3

def checkCrc (crc value : BitVec 32) : Bool := (wordBytes value).foldl (byteStep crcEntry) crc = goodCrc

/-- the bytes that `CompareCRC` takes in, and gives back in the other order -/
def readAhead (s : Reader) : List UInt8 :=
  if s.getlen = 16 then
    [UInt8.ofBitVec ((s.getbuf >>> 8).setWidth 8), UInt8.ofBitVec (s.getbuf.setWidth 8), s.secondbuf]
  else if 8 ≤ s.getlen then [UInt8.ofBitVec ((s.getbuf >>> (16 - s.getlen)).setWidth 8), s.secondbuf]
  else [s.secondbuf]

def compareCrc (s : Reader) (crc crcvalue : BitVec 32) : Bool := checkCrc crc ((readAhead s).foldl modifyCrc crcvalue)

/-! ## the checksums -/

theorem crcTable_tops : (crcTable.map fun x => x / 2 ^ 24).Nodup := by
  decide +kernel

theorem crcTable_lt : ∀ x ∈ crcTable, x < 2 ^ 32 := by
  decide +kernel

theorem crcEntry_injective : Function.Injective fun i => crcEntry i >>> 24 := by
  have hlen : crcTable.length = 256 := by decide +kernel
  have hmap : (crcTable.map fun x => x / 2 ^ 24).length = 256 := by rw [List.length_map, hlen]
  have htop : ∀ (i : BitVec 8) (hi : i.toNat < (crcTable.map fun x => x / 2 ^ 24).length),
      (crcEntry i >>> 24).toNat = (crcTable.map fun x => x / 2 ^ 24)[i.toNat] := by
    intro i _
    have hi : i.toNat < crcTable.length := by rw [hlen]; exact i.isLt
    rw [BitVec.toNat_ushiftRight, crcEntry, BitVec.toNat_ofNat, List.getD_eq_getElem _ _ hi,
      Nat.mod_eq_of_lt (crcTable_lt _ (List.getElem_mem hi)), Nat.shiftRight_eq_div_pow, List.getElem_map]
  intro i j h
  have hn : (crcEntry i >>> 24).toNat = (crcEntry j >>> 24).toNat := congrArg BitVec.toNat h
  rw [htop i (by rw [hmap]; exact i.isLt), htop j (by rw [hmap]; exact j.isLt)] at hn
  exact BitVec.eq_of_toNat_eq (crcTable_tops.getElem_inj_iff.mp hn)

theorem goodCrc_eq : goodCrc = zeroStep crcEntry (zeroStep crcEntry (zeroStep crcEntry
    (zeroStep crcEntry 0xFFFFFFFF))) := by
  decide +kernel

theorem checkCrc_iff (crc value : BitVec 32) : checkCrc crc value = true ↔ value = getCrc crc := by
  have hones : (0xFFFFFFFF : BitVec 32) = BitVec.allOnes 32 := by decide
  rw [checkCrc, decide_eq_true_eq, goodCrc_eq, foldl_word_iff crcEntry_injective, getCrc, hones, BitVec.xor_allOnes]

theorem calcCrc_injective (l : List UInt8) : Function.Injective fun c => l.foldl calcCrc c := by
  induction l with
  | nil => exact fun c d he => he
  | cons b l ih => exact fun c d he => byteStep_injective crcEntry_injective b.toBitVec (ih he)

theorem foldl_modifyCrc (l : List UInt8) (value : BitVec 32) :
    l.foldl modifyCrc value = ~~~ l.foldl calcCrc (~~~ value) := by
  induction l generalizing value with
  | nil => exact (BitVec.not_not).symm
  | cons b l ih =>
    rw [List.foldl_cons, ih, modifyCrc, BitVec.not_not]
    rfl

/-- bytes that both sides take in do not count -/
theorem checkCrc_behind (data ahead : List UInt8) (value : BitVec 32) :
    checkCrc (crcOf (data ++ ahead)) (ahead.foldl modifyCrc value) = true ↔ value = getCrc (crcOf data) := by
  rw [checkCrc_iff, foldl_modifyCrc, getCrc, getCrc, crcOf, List.foldl_append, BitVec.not_inj]
  constructor
  · intro h
    rw [← show ~~~ value = crcOf data from calcCrc_injective ahead h, BitVec.not_not]
  · rintro rfl
    rw [BitVec.not_not]
    rfl

/-! ## what has been read ahead -/

section
variable {bytes : ℕ → UInt8} {p : ℕ} {s : Reader}

/-- eight bits of `getbuf` are a byte of the stream -/
theorem byte_of_getbuf (h : Reading bytes p s) {q n : ℕ} (hn : n + 8 ≤ s.getlen) (hp : p + n = 8 * q) :
    UInt8.ofBitVec ((s.getbuf >>> (16 - (n + 8))).setWidth 8) = bytes q := by
  have hle := h.le
  refine UInt8.toBitVec_inj.mp (BitVec.eq_of_getMsbD_eq fun i hi => ?_)
  show ((s.getbuf >>> (16 - (n + 8))).setWidth 8).getMsbD i = _
  rw [BitVec.getMsbD_setWidth, show i + 16 - 8 = i + 8 by omega, decide_eq_true (by omega), Bool.true_and,
    BitStreams.getMsbD_right _ (by omega) (by omega), h.buffer _ (by omega),
    show p + (i + 8 - (16 - (n + 8))) = 8 * q + i by omega, BitStreams.bitAt_byte bytes q hi]

/-- the bytes from the end of the bits on -/
theorem readAhead_reading (h : Reading bytes p s) :
    (p + 7) / 8 + (readAhead s).length = s.next ∧
      readAhead s = (List.range (readAhead s).length).map fun i => bytes ((p + 7) / 8 + i) := by
  obtain ⟨q, hq, hnext, hp⟩ := h.second
  have hle := h.le
  rw [readAhead]
  by_cases h16 : s.getlen = 16
  · rw [if_pos h16]
    have he : (p + 7) / 8 + 2 = q := by omega
    have h1 := byte_of_getbuf h (n := 0) (q := (p + 7) / 8) (by omega) (by omega)
    have h2 := byte_of_getbuf h (n := 8) (q := (p + 7) / 8 + 1) (by omega) (by omega)
    refine ⟨show (p + 7) / 8 + 3 = s.next by omega, ?_⟩
    show _ = [bytes ((p + 7) / 8), bytes ((p + 7) / 8 + 1), bytes ((p + 7) / 8 + 2)]
    rw [← h1, ← h2, he, hq]
    rfl
  · rw [if_neg h16]
    by_cases h8 : 8 ≤ s.getlen
    · rw [if_pos h8]
      have he : (p + 7) / 8 + 1 = q := by omega
      have h1 := byte_of_getbuf h (n := s.getlen - 8) (q := (p + 7) / 8) (by omega) (by omega)
      refine ⟨show (p + 7) / 8 + 2 = s.next by omega, ?_⟩
      show _ = [bytes ((p + 7) / 8), bytes ((p + 7) / 8 + 1)]
      rw [← h1, he, hq, Nat.sub_add_cancel h8]
    · rw [if_neg h8]
      have he : (p + 7) / 8 = q := by omega
      refine ⟨show (p + 7) / 8 + 1 = s.next by omega, ?_⟩
      show _ = [bytes ((p + 7) / 8)]
      rw [he, hq]

/-- the bytes of the stream from one place to another -/
def stretch (bytes : ℕ → UInt8) (a b : ℕ) : List UInt8 := (List.range (b - a)).map fun i => bytes (a + i)

theorem stretch_append {a b c : ℕ} (hab : a ≤ b) (hbc : b ≤ c) :
    stretch bytes a c = stretch bytes a b ++ stretch bytes b c := by
  rw [stretch, show c - a = (b - a) + (c - b) by omega, List.range_add, List.map_append, List.map_map]
  congr 1
  refine List.map_congr_left fun i _ => ?_
  show bytes (a + (b - a + i)) = _
  rw [show a + (b - a + i) = b + i by omega]

theorem readAhead_back (h : Reading bytes p s) : s.next - (readAhead s).length = (p + 7) / 8 := by
  have := (readAhead_reading h).1
  omega

theorem readAhead_stretch (h : Reading bytes p s) : readAhead s = stretch bytes ((p + 7) / 8) s.next := by
  obtain ⟨hlen, hahead⟩ := readAhead_reading h
  rw [stretch, show s.next - (p + 7) / 8 = (readAhead s).length by omega]
  exact hahead

/-- the checksum is that of the bytes of the file alone -/
theorem compareCrc_stretch (h : Reading bytes p s) {first : ℕ} (hf : 8 * first ≤ p) (crcvalue : BitVec 32) :
    compareCrc s (crcOf (stretch bytes first s.next)) crcvalue = true ↔
      crcvalue = getCrc (crcOf (stretch bytes first ((p + 7) / 8))) := by
  have hlen := (readAhead_reading h).1
  rw [compareCrc, stretch_append (show first ≤ (p + 7) / 8 by omega) (show (p + 7) / 8 ≤ s.next by omega),
    ← readAhead_stretch h]
  exact checkCrc_behind _ _ crcvalue

end

end Wpack
