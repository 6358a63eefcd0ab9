/-!
# Reading UTF-8

Bytes are read character by character. A character is a leading byte and the continuation bytes that
it owes; the leading byte also bounds the first of them, which keeps out overlong forms, surrogates
and numbers past U+10FFFF. The first fault ends the reading, and says which bytes are at fault.
-/

namespace NeutronLang.Text

/-- What can be wrong with a sequence of bytes; `Utf8Reason.message` says it. -/
inductive Utf8Reason where
  /-- No character starts with this byte. -/
  | invalidStart
  /-- The character begun goes on with a byte that it cannot have there. -/
  | invalidContinuation
  /-- The bytes end inside a character. -/
  | unexpectedEnd
deriving DecidableEq

/-- The wording of a reason. -/
def Utf8Reason.message : Utf8Reason → String
  | invalidStart => "invalid start byte"
  | invalidContinuation => "invalid continuation byte"
  | unexpectedEnd => "unexpected end of data"

/-- The first place where bytes are not UTF-8: the bytes of a character as far as they went well,
and the `reason` why it went no further. -/
structure Utf8Fault where
  /-- How many bytes stand before the fault. -/
  position : Nat
  /-- The leading byte at fault. -/
  lead : UInt8
  /-- How many continuation bytes after it were still acceptable. -/
  accepted : Nat
  reason : Utf8Reason
deriving DecidableEq

/-- The wording of a fault: a single byte is named by its value, several by their positions. -/
def Utf8Fault.message (fault : Utf8Fault) : String :=
  let digits := Nat.toDigits 16 fault.lead.toNat
  let byte := String.ofList (List.replicate (2 - digits.length) '0' ++ digits)
  let place :=
    if fault.accepted = 0 then s!"byte 0x{byte} in position {fault.position}"
    else s!"bytes in position {fault.position}-{fault.position + fault.accepted}"
  s!"'utf-8' codec can't decode {place}: {fault.reason.message}"

/-- What a leading byte says about its character, as `Utf8Lead.ofByte?` tells it. -/
structure Utf8Lead where
  /-- The bits that the leading byte contributes. -/
  bits : Nat
  /-- How many continuation bytes follow. -/
  owed : Nat
  /-- The least first continuation byte. -/
  low : Nat
  /-- The greatest first continuation byte. -/
  high : Nat

/-- Reads a leading byte; none starts with a continuation byte, `C0`, `C1` or a byte above `F4`. -/
def Utf8Lead.ofByte? (byte : UInt8) : Option Utf8Lead :=
  let b := byte.toNat
  if b < 0x80 then some ⟨b, 0, 0x80, 0xbf⟩
  else if b < 0xc2 then none
  else if b < 0xe0 then some ⟨b - 0xc0, 1, 0x80, 0xbf⟩
  else if b < 0xf0 then
    some ⟨b - 0xe0, 2, if b = 0xe0 then 0xa0 else 0x80, if b = 0xed then 0x9f else 0xbf⟩
  else if b < 0xf5 then
    some ⟨b - 0xf0, 3, if b = 0xf0 then 0x90 else 0x80, if b = 0xf4 then 0x8f else 0xbf⟩
  else none

/--
Reads the continuation bytes still owed, the next of them between `low` and `high`. The answer is
the code point and the bytes that remain, or what went wrong after how many good bytes.
-/
def continuation (bits low high : Nat) :
    (owed : Nat) → List UInt8 → Except (Nat × Utf8Reason) (Nat × List UInt8)
  | 0, bytes => .ok (bits, bytes)
  | _ + 1, [] => .error (0, .unexpectedEnd)
  | owed + 1, byte :: bytes =>
    if low ≤ byte.toNat && byte.toNat ≤ high then
      match continuation (bits * 64 + (byte.toNat - 0x80)) 0x80 0xbf owed bytes with
      | .ok answer => .ok answer
      | .error (accepted, reason) => .error (accepted + 1, reason)
    else .error (0, .invalidContinuation)

/-- `continuation` takes its bytes off the front. -/
theorem length_le_of_continuation {bits low high owed : Nat} {bytes rest : List UInt8} {point : Nat}
    (h : continuation bits low high owed bytes = .ok (point, rest)) :
    rest.length ≤ bytes.length := by
  induction owed generalizing bits low high bytes with
  | zero => simp only [continuation, Except.ok.injEq, Prod.mk.injEq] at h; simp [h.2]
  | succ owed ih =>
    cases bytes with
    | nil => simp [continuation] at h
    | cons byte bytes =>
      simp only [continuation] at h
      split at h
      · split at h
        · rename_i answer found
          cases h
          have := ih found
          simp only [List.length_cons]
          omega
        · simp at h
      · simp at h

/-- Reads bytes as UTF-8, `position` of them having been read before. -/
def decodeUtf8 (position : Nat) : List UInt8 → Except Utf8Fault (List Char)
  | [] => .ok []
  | byte :: bytes =>
    match Utf8Lead.ofByte? byte with
    | none => .error ⟨position, byte, 0, .invalidStart⟩
    | some lead =>
      match _read : continuation lead.bits lead.low lead.high lead.owed bytes with
      | .error (accepted, reason) => .error ⟨position, byte, accepted, reason⟩
      | .ok (point, rest) =>
        match decodeUtf8 (position + 1 + lead.owed) rest with
        | .error fault => .error fault
        | .ok text => .ok (Char.ofNat point :: text)
termination_by bytes => bytes.length
decreasing_by
  have := length_le_of_continuation _read
  simp only [List.length_cons]
  omega

/-- Every line ends in a line feed: a carriage return becomes one, with the line feed after it. -/
def unifyNewlines : List Char → List Char
  | [] => []
  | '\r' :: '\n' :: rest => '\n' :: unifyNewlines rest
  | '\r' :: rest => '\n' :: unifyNewlines rest
  | c :: rest => c :: unifyNewlines rest

end NeutronLang.Text
