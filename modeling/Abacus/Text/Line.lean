/-!
Lines of a byte sequence. A newline ends a line, and a carriage return in
front of it belongs to the end; the last line may lack its newline.
-/

namespace Abacus.Text

def newline : UInt8 := 10

structure Line where
  bytes : List UInt8
  ended : Bool
deriving DecidableEq, Repr

def decode? (bytes : List UInt8) : Option String :=
  String.fromUTF8? ⟨bytes.toArray⟩

def splitLines (bytes : List UInt8) : List Line :=
  if bytes.isEmpty then []
  else
    let behind := bytes.dropWhile (· != newline)
    ⟨bytes.takeWhile (· != newline), !behind.isEmpty⟩ :: splitLines (behind.drop 1)
termination_by bytes.length
decreasing_by
  have hpos : 0 < bytes.length :=
    List.length_pos_iff.mpr (by simpa using ‹¬bytes.isEmpty = true›)
  have hle := (List.dropWhile_sublist (· != newline) (l := bytes)).length_le
  rw [List.length_drop]
  omega

def dropReturn (text : String) : String :=
  if text.toList.getLast? = some '\r' then String.ofList text.toList.dropLast else text

/-- The text of a line without its end, if it is valid UTF-8. -/
def Line.text? (line : Line) : Option String :=
  (decode? line.bytes).map fun text => if line.ended then dropReturn text else text

end Abacus.Text
