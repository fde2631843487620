import Mathlib

/-! # UTF-8 validation

    `validate_utf8` of `strings/utf8.h` runs `boost::locale::conv::utf_to_utf`
    with the `stop` policy, which throws on the first code point that
    Boost.Locale's `utf_traits<char>::decode` reports illegal or incomplete.
    That decoder is modelled here: a lead byte gives the number of trail
    bytes, each trail byte is `10xxxxxx`, and the code point must be at most
    `U+10FFFF`, not a surrogate, and in its shortest form. -/

namespace Utf8

/-- `utf_traits<char>::trail_length`: the trail bytes after a lead byte,
    `none` for a byte that cannot lead. -/
def trailLength (c : Nat) : Option Nat :=
  if c < 128 then some 0
  else if c < 194 then none
  else if c < 224 then some 1
  else if c < 240 then some 2
  else if c ≤ 244 then some 3
  else none

/-- `utf_traits<char>::is_trail`. -/
def isTrail (c : Nat) : Bool := c &&& 0xC0 = 0x80

/-- `utf::is_valid_codepoint`. -/
def isValidCodepoint (v : Nat) : Bool := v ≤ 0x10FFFF && !(0xD800 ≤ v && v ≤ 0xDFFF)

/-- `utf_traits<char>::width`. -/
def width (v : Nat) : Nat :=
  if v ≤ 0x7F then 1 else if v ≤ 0x7FF then 2 else if v ≤ 0xFFFF then 3 else 4

/-- The `switch` of `decode` over the trail bytes. -/
def readTrail : Nat → Nat → List UInt8 → Option (Nat × List UInt8)
  | 0, c, bytes => some (c, bytes)
  | _ + 1, _, [] => none
  | n + 1, c, tmp :: bytes =>
      if isTrail tmp.toNat then readTrail n ((c <<< 6) ||| (tmp.toNat &&& 0x3F)) bytes else none

/-- `utf_traits<char>::decode`: the code point at the front and the bytes
    after it, `none` where Boost returns `illegal` or `incomplete`. -/
def decode : List UInt8 → Option (Nat × List UInt8)
  | [] => none
  | lead :: bytes =>
      match trailLength lead.toNat with
      | none => none
      | some 0 => some (lead.toNat, bytes)
      | some trailSize =>
          let c := lead.toNat &&& ((1 <<< (6 - trailSize)) - 1)
          match readTrail trailSize c bytes with
          | none => none
          | some (c, rest) =>
              if !isValidCodepoint c then none
              else if width c ≠ trailSize + 1 then none
              else some (c, rest)

/-- The loop of `utf_to_utf` over the input; each code point takes at least
    one byte, so the input's length bounds the turns. -/
def validateGo : Nat → List UInt8 → Bool
  | _, [] => true
  | 0, _ :: _ => false
  | fuel + 1, bytes =>
      match decode bytes with
      | none => false
      | some (_, rest) => validateGo fuel rest

/-- `validate_utf8` does not throw. -/
def validateUtf8 (bytes : List UInt8) : Bool := validateGo bytes.length bytes

example : validateUtf8 [0x68, 0xC3, 0xA9] = true := by decide

example : validateUtf8 [0xC0, 0x80] = false := by decide

end Utf8
