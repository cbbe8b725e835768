/-! Texts as bytes. Reading bytes back never fails: each longest run of bytes that begins a character
    but does not finish it stands for one unreadable unit, and so does each byte that begins none.
    A file is a text when all of its units are characters. -/

namespace RouterShift.Text

/-- What must follow the first byte of a character: how many bytes, and the range of the first of
    them; the others are any of `0x80` to `0xBF`. -/
structure Followers where
  count : Nat
  low : UInt8
  high : UInt8

/-- The followers of a byte above `0x7F`; none for one that starts no character. -/
def followers? (lead : UInt8) : Option Followers :=
  if 0xC2 ≤ lead && lead ≤ 0xDF then some ⟨1, 0x80, 0xBF⟩
  else if lead == 0xE0 then some ⟨2, 0xA0, 0xBF⟩
  else if lead == 0xED then some ⟨2, 0x80, 0x9F⟩
  else if 0xE1 ≤ lead && lead ≤ 0xEF then some ⟨2, 0x80, 0xBF⟩
  else if lead == 0xF0 then some ⟨3, 0x90, 0xBF⟩
  else if lead == 0xF4 then some ⟨3, 0x80, 0x8F⟩
  else if 0xF1 ≤ lead && lead ≤ 0xF3 then some ⟨3, 0x80, 0xBF⟩
  else none

/-- The longest run of at most `count` bytes that can follow. -/
def followRun : Nat → UInt8 → UInt8 → List UInt8 → List UInt8
  | 0, _, _, _ => []
  | _ + 1, _, _, [] => []
  | n + 1, low, high, b :: rest =>
    if low ≤ b && b ≤ high then b :: followRun n 0x80 0xBF rest else []

/-- The character of a first byte and all of its followers. -/
def assemble (lead : UInt8) (rest : List UInt8) : Char :=
  let start := match rest.length with
    | 1 => lead.toNat - 0xC0
    | 2 => lead.toNat - 0xE0
    | _ => lead.toNat - 0xF0
  Char.ofNat (rest.foldl (fun n b => n * 64 + (b.toNat - 0x80)) start)

/-- The units that bytes stand for; none for one that is no character. -/
def units : List UInt8 → List (Option Char)
  | [] => []
  | b :: rest =>
    if b < 0x80 then some (Char.ofNat b.toNat) :: units rest
    else
      match followers? b with
      | none => none :: units rest
      | some f =>
        let run := followRun f.count f.low f.high rest
        let unit := if run.length = f.count then some (assemble b run) else none
        unit :: units (rest.drop run.length)
termination_by bytes => bytes.length
decreasing_by all_goals simp only [List.length_cons, List.length_drop]; omega

/-- The text that bytes stand for, if they stand for one. -/
def ofUtf8? (bytes : List UInt8) : Option String := ((units bytes).mapM id).map String.ofList

/-- The text that bytes stand for, with the replacement character where they stand for none. -/
def ofUtf8Lossy (bytes : List UInt8) : String :=
  String.ofList ((units bytes).map (·.getD '\ufffd'))

end RouterShift.Text
