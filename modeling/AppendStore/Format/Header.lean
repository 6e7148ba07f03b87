import AppendStore.Library.Stream
import AppendStore.Library.FileSystem

/-! # Errors, limits and the log header

An error is modelled by what a caller can find out about it: the sentinels `errors.Is` finds in its
chain, and its text. `%w` keeps the chain of the wrapped error (`wrap`), `%v` only prints it
(`printed`). Text taken from a byte string is one character a byte.

The header is sixteen bytes: the magic, the version and the two feature masks.
-/

namespace AppendStore
open Library
set_option autoImplicit false

/-! ## Errors -/

/-- The errors a caller can test for. -/
inductive Sentinel
  | storeClosed
  | storeLocked
  | corruptedData
  | unsupportedVersion
  | unsupportedFeature
  | readOnly
  | compactionInProgress
  | keyNotFound
  | invalidKey
  | invalidAttribute
  | valueTooLarge
  | attributesTooLarge
  | eof
  | unexpectedEOF
  | notExist
  deriving DecidableEq, Repr

inductive Err
  | sentinel (s : Sentinel)
  | detail (s : Sentinel) (text : String)
  | plain (text : String)
  | os (e : OsError)
  | wrap (context : String) (e : Err)
  | printed (s : Sentinel) (context : String) (e : Err)
  | both (s : Sentinel) (e : Err)
  | join (a b : Err)
  deriving DecidableEq, Repr

/-- `errors.Is`. -/
def Err.is (s : Sentinel) : Err → Bool
  | .sentinel t => t == s
  | .detail t _ => t == s
  | .plain _ => false
  | .os e => (e == .eof && s == .eof) || (e == .notExist && s == .notExist)
  | .wrap _ e => e.is s
  | .printed t _ _ => t == s
  | .both t e => t == s || e.is s
  | .join a b => a.is s || b.is s

/-- A byte string in an error text. -/
def textOf (b : Bytes) : String := String.ofList (b.map fun x => Char.ofNat x.toNat)

/-- `%q` of a text that needs no escapes. -/
def quoted (b : Bytes) : String := "\"" ++ textOf b ++ "\""

/-- `errors.Is(err, io.EOF) || errors.Is(err, io.ErrUnexpectedEOF)`. -/
def Err.isEOF (e : Err) : Bool := e.is .eof || e.is .unexpectedEOF

/-! ## Limits -/

def logMagic : Bytes := [0x48, 0x59, 0x42, 0x52]
def logVersion : ℕ := 5
def logHeaderSize : ℕ := 16
def knownIncompatibleFeatures : ℕ := 0
def knownReadOnlyFeatures : ℕ := 0
def maxKeySize : ℕ := 1 <<< 20
def maxValueSize : ℕ := (1 <<< 31) - 1
def maxAttributesSize : ℕ := 16 <<< 20
def maxAttributeCount : ℕ := 4096
def maxExtensionsSize : ℕ := 16 <<< 20
def recordFixedBodySize : ℕ := 16
def recordMinimumLength : ℕ := recordFixedBodySize + 4
def recordFieldsOffset : ℕ := 4 + recordFixedBodySize
def extensionHeaderSize : ℕ := 6
def maxRetainedScratch : ℕ := 1 <<< 20
/-- The largest `uint32` and the largest `int`. -/
def maxUint32 : ℕ := 2 ^ 32 - 1
def maxInt : ℕ := 2 ^ 63 - 1

/-! ## The header -/

structure Header where
  version : ℕ
  incompatibleFeatures : ℕ
  readOnlyFeatures : ℕ
  deriving DecidableEq, Repr

def Header.bytes (h : Header) : Bytes :=
  logMagic ++ leBytes 4 h.version ++ leBytes 4 h.incompatibleFeatures ++ leBytes 4 h.readOnlyFeatures

@[simp] theorem Header.bytes_length (h : Header) : h.bytes.length = 16 := by
  simp [Header.bytes, logMagic]

/-- `mask &^ known`. -/
def clearBits (mask known : ℕ) : ℕ := mask ^^^ (mask &&& known)

@[simp] theorem clearBits_zero (mask : ℕ) : clearBits mask 0 = mask := by
  simp [clearBits]

def unknownFeatureError (mask : String) (unknown : ℕ) : Err :=
  .detail .unsupportedFeature
    (mask ++ " mask sets bit " ++
      ", ".intercalate (((List.range 32).filter fun bit => unknown.testBit bit).map toString))

/-- What `readHeader` makes of the sixteen header bytes. -/
def decodeHeader (header : Bytes) : Except Err Header :=
  if slice header 0 4 ≠ logMagic then .error (.detail .corruptedData "invalid magic")
  else
    let version := leNat (slice header 4 8)
    if version = 0 then .error (.detail .corruptedData "invalid log version 0")
    else if version > logVersion then
      .error (.detail .unsupportedVersion s!"{version} (maximum {logVersion})")
    else
      -- only a version 5 header carries feature masks
      let incompatible := if version ≥ 5 then leNat (slice header 8 12) else 0
      let readOnly := if version ≥ 5 then leNat (slice header 12 16) else 0
      if clearBits incompatible knownIncompatibleFeatures ≠ 0 then
        .error (unknownFeatureError "incompatible" (clearBits incompatible knownIncompatibleFeatures))
      else .ok ⟨version, incompatible, readOnly⟩

theorem decodeHeader_fields (v i r : ℕ) (hv : v < 256 ^ 4) (hi : i < 256 ^ 4) (hr : r < 256 ^ 4) :
    slice (Header.bytes ⟨v, i, r⟩) 0 4 = logMagic ∧
    leNat (slice (Header.bytes ⟨v, i, r⟩) 4 8) = v ∧
    leNat (slice (Header.bytes ⟨v, i, r⟩) 8 12) = i ∧
    leNat (slice (Header.bytes ⟨v, i, r⟩) 12 16) = r := by
  have hm : logMagic.length = 4 := rfl
  refine ⟨?_, ?_, ?_, ?_⟩
  · have h := slice_eq_of_append [] logMagic (leBytes 4 v ++ leBytes 4 i ++ leBytes 4 r) 0 4 rfl rfl
    simpa [Header.bytes, List.append_assoc] using h
  · have h := slice_eq_of_append logMagic (leBytes 4 v) (leBytes 4 i ++ leBytes 4 r) 4 8 rfl (by simp [hm])
    rw [← leNat_leBytes 4 v hv]
    congr 1
    simpa [Header.bytes, List.append_assoc, leNat_leBytes 4 v hv] using h
  · have h := slice_eq_of_append (logMagic ++ leBytes 4 v) (leBytes 4 i) (leBytes 4 r) 8 12
      (by simp [hm]) (by simp [hm])
    rw [← leNat_leBytes 4 i hi]
    congr 1
    simpa [Header.bytes, List.append_assoc, leNat_leBytes 4 i hi] using h
  · have h := slice_eq_of_append (logMagic ++ leBytes 4 v ++ leBytes 4 i) (leBytes 4 r) [] 12 16
      (by simp [hm]) (by simp [hm])
    rw [← leNat_leBytes 4 r hr]
    congr 1
    simpa [Header.bytes, List.append_assoc, leNat_leBytes 4 r hr] using h

/-- A header this build writes is read back, unless it asks for an unknown capability. -/
theorem decodeHeader_bytes (v i r : ℕ) (hv : v < 256 ^ 4) (hi : i < 256 ^ 4) (hr : r < 256 ^ 4)
    (hv0 : v ≠ 0) (hv5 : v ≤ 5) :
    decodeHeader (Header.bytes ⟨v, i, r⟩) =
      if v = 5 then
        if i = 0 then .ok ⟨5, 0, r⟩ else .error (unknownFeatureError "incompatible" i)
      else .ok ⟨v, 0, 0⟩ := by
  obtain ⟨h0, h1, h2, h3⟩ := decodeHeader_fields v i r hv hi hr
  have hgt : ¬ v > logVersion := by simpa [logVersion] using hv5
  unfold decodeHeader
  rw [h0, h1, h2, h3]
  by_cases h5 : v = 5
  · subst h5
    by_cases hi0 : i = 0
    · simp [hi0, knownIncompatibleFeatures, logVersion]
    · simp [hi0, knownIncompatibleFeatures, logVersion]
  · have hlt : ¬ 5 ≤ v := by omega
    simp [hv0, hgt, hlt, h5, knownIncompatibleFeatures]

/-- The sixteen bytes are the four fields. -/
theorem header_split {b : Bytes} (hlen : b.length = logHeaderSize) (hmagic : slice b 0 4 = logMagic) :
    b = Header.bytes ⟨leNat (slice b 4 8), leNat (slice b 8 12), leNat (slice b 12 16)⟩ := by
  have hlen : b.length = 16 := hlen
  have h1 : (slice b 4 8).length = 4 := slice_length b 4 8 (by omega)
  have h2 : (slice b 8 12).length = 4 := slice_length b 8 12 (by omega)
  have h3 : (slice b 12 16).length = 4 := slice_length b 12 16 (by omega)
  have hend : b.drop 16 = [] := List.drop_eq_nil_of_le (by omega)
  have hall : b = slice b 0 4 ++ slice b 4 8 ++ slice b 8 12 ++ slice b 12 16 := by
    calc b = b.drop 0 := rfl
      _ = slice b 0 4 ++ (slice b 4 8 ++ (slice b 8 12 ++ (slice b 12 16 ++ b.drop 16))) := by
        rw [drop_split b 0 4, drop_split b (0 + 4) 4, drop_split b (0 + 4 + 4) 4,
          drop_split b (0 + 4 + 4 + 4) 4]
      _ = _ := by simp only [hend, List.append_nil, List.append_assoc]
  rw [Header.bytes, leBytes_leNat_of_length h1, leBytes_leNat_of_length h2, leBytes_leNat_of_length h3,
    ← hmagic]
  exact hall

/-- A header that is accepted: a known version, no unknown incompatible feature, and no read-only
feature before version 5. -/
theorem decodeHeader_ok {b : Bytes} {h : Header} (hlen : b.length = logHeaderSize)
    (hok : decodeHeader b = .ok h) :
    1 ≤ h.version ∧ h.version ≤ logVersion ∧ h.incompatibleFeatures = 0 ∧
      (h.version < logVersion → h.readOnlyFeatures = 0) ∧ (h.version = logVersion → b = h.bytes) := by
  unfold decodeHeader at hok
  split at hok
  · cases hok
  · rename_i hmagic
    have hb := header_split hlen (not_not.mp hmagic)
    dsimp only at hok
    split at hok
    · cases hok
    · rename_i h0
      split at hok
      · cases hok
      · rename_i h5
        by_cases hge : leNat (slice b 4 8) ≥ 5
        · rw [if_pos hge, if_pos hge, knownIncompatibleFeatures, clearBits_zero] at hok
          split at hok
          · cases hok
          · rename_i hinc
            cases hok
            refine ⟨Nat.pos_of_ne_zero h0, Nat.not_lt.mp h5, not_not.mp hinc, ?_, fun _ => hb⟩
            intro hlt
            exact absurd hge (Nat.not_le.mpr hlt)
        · rw [if_neg hge, if_neg hge, knownIncompatibleFeatures, clearBits_zero,
            if_neg (not_not.mpr rfl)] at hok
          cases hok
          refine ⟨Nat.pos_of_ne_zero h0, Nat.not_lt.mp h5, rfl, fun _ => rfl, ?_⟩
          intro heq
          exact absurd (Nat.le_of_eq heq.symm) hge

end AppendStore
