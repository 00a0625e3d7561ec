/-!
# Separated parts

Texts whose parts are separated by a mark.

## The model

`cut` divides a text at the first mark and `split` at every mark. A text without the mark is a
single part, even if it is empty.
-/

namespace LeaseLock.Text

/-- The characters before the first mark, and those after it if there is one. -/
def cut (mark : Char) (cs : List Char) : List Char × Option (List Char) :=
  match cs.dropWhile (· ≠ mark) with
  | [] => (cs, none)
  | _ :: rest => (cs.takeWhile (· ≠ mark), some rest)

/-- The parts between the marks. -/
def split (mark : Char) : List Char → List (List Char)
  | [] => [[]]
  | c :: cs =>
    if c = mark then [] :: split mark cs
    else match split mark cs with
      | [] => [[c]]
      | p :: ps => (c :: p) :: ps

end LeaseLock.Text
