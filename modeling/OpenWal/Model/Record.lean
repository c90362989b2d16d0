import OpenWal.Model.Types

namespace OpenWal
open ByteSeq

def recordHeaderSize : ℕ := 20

def recTypeFull : UInt8 := 1

def recTypeSentinel : UInt8 := 0

def lenOff : ℕ := 4

def lsnOff : ℕ := 8

def recTypeOff : ℕ := 16

def payloadOff : ℕ := recordHeaderSize

def zeroPad : Bytes := zeros 7

def paddingFor (payloadLen : ℕ) : ℕ := (8 - (recordHeaderSize + payloadLen) % 8) % 8

def paddingForU64 (payloadLen : ℕ) : ℕ := (8 - (recordHeaderSize % 8 + payloadLen % 8) % 8) % 8

def framedSize (payloadLen : ℕ) : ℕ := recordHeaderSize + payloadLen + paddingFor payloadLen

def framedSizeU64 (payloadLen : ℕ) : ℕ := recordHeaderSize + payloadLen + paddingForU64 payloadLen

inductive DecodeError where
  | lengthTooLarge
  | badCrc
  | unknownRecType
  deriving DecidableEq, Repr

inductive Decoded where
  | record (lsn : ℕ) (payload : Bytes) (framedLen : ℕ)
  | sentinel
  | incomplete
  | invalid (e : DecodeError)
  deriving DecidableEq, Repr

variable [Crc32c]

def encodeInto (buf : Bytes) (lsn : ℕ) (payload : Bytes) : Bytes × ℕ :=
  let length := payload.length
  let pad := paddingFor payload.length
  let start := buf.length
  -- the checksum's place, filled in once the body is laid down
  let buf := buf ++ zeros 4
  let buf := buf ++ leBytes 4 length
  let buf := buf ++ leBytes 8 lsn
  let buf := buf ++ [recTypeFull]
  let buf := buf ++ [0]
  let buf := buf ++ zeros 2
  let buf := buf ++ payload
  let buf := buf ++ zeroPad.take pad
  let framed := buf.length - start
  let crc := crc32c (slice buf (start + lenOff) (start + framed))
  (overwrite buf start (leBytes 4 crc.toNat), framed)

omit [Crc32c] in
/-- The number and framed size of the record at the front of `buf`, unchecked. -/
def peek (buf : Bytes) : ℕ × ℕ :=
  let length := leNat (slice buf lenOff (lenOff + 4))
  let lsn := leNat (slice buf lsnOff (lsnOff + 8))
  (lsn, framedSize length)

def decode (buf : Bytes) (maxRecordSize : ℕ) : Decoded :=
  if buf.length < recordHeaderSize then .incomplete
  else
    let recType := buf.getD recTypeOff 0
    if recType = recTypeSentinel ∧ (buf.take recordHeaderSize).all (· == 0) then .sentinel
    else
      let length := leNat (slice buf lenOff (lenOff + 4))
      if length > maxRecordSize then .invalid .lengthTooLarge
      else
        let framed := recordHeaderSize + length + paddingForU64 length
        if framed > buf.length then .incomplete
        else
          let storedCrc := leNat (slice buf 0 4)
          let computedCrc := crc32c (slice buf lenOff framed)
          if computedCrc.toNat ≠ storedCrc then .invalid .badCrc
          else if recType ≠ recTypeFull then .invalid .unknownRecType
          else
            .record (leNat (slice buf lsnOff (lsnOff + 8)))
              (slice buf payloadOff (payloadOff + length)) framed

/-- A decoded record is at least a header long and lies inside the buffer. -/
theorem decode_record_bounds {buf payload : Bytes} {maxRecordSize n : ℕ} {lsn : ℕ}
    (h : decode buf maxRecordSize = .record lsn payload n) : 20 ≤ n ∧ n ≤ buf.length := by
  unfold decode at h
  simp only at h
  split_ifs at h with h1 h2 h3 h4
  have hn : recordHeaderSize = 20 := rfl
  simp only [Decoded.record.injEq] at h
  omega

end OpenWal
