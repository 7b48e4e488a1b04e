/-!
# Similarity

Two words are alike when most letters of each stand at about the same place in the other, in the same
order.
-/

namespace BasicComputer.Similarity

/-- How far apart two equal letters may stand and still be matched. -/
def window (a b : List Char) : Nat := max a.length b.length / 2 - 1

/-- Places of equal letters in `a` and `b`, in the order of `a`. Each letter is matched with the first one
in the window that is still free. -/
def pairs (a b : List Char) : List (Nat × Nat) :=
  let w := window a b
  a.zipIdx.foldl
    (fun taken (c, i) =>
      let free := fun (d, j) => c == d && i ≤ j + w && j ≤ i + w && !taken.any (·.2 == j)
      match b.zipIdx.find? free with
      | some (_, j) => taken ++ [(i, j)]
      | none => taken)
    []

/-- Half the number of places at which the matched letters of `a` and those of `b`, each in their own
order, differ. -/
def transpositions (a b : List Char) : Nat :=
  let matched := pairs a b
  let inOrderOfA := (a.zipIdx.filter fun (_, i) => matched.any (·.1 == i)).map (·.1)
  let inOrderOfB := (b.zipIdx.filter fun (_, j) => matched.any (·.2 == j)).map (·.1)
  (inOrderOfA.zip inOrderOfB).countP (fun (c, d) => c != d) / 2

/-- The mean of three parts is at least seven tenths: the matched part of `a`, the matched part of `b`, and
the part of the matched letters that is not transposed. Words with no letter matched are not alike. -/
def alike (a b : List Char) : Bool :=
  let m := (pairs a b).length
  let t := transpositions a b
  m != 0 &&
    21 * (a.length * b.length * m) ≤
      10 * (m * m * b.length + m * m * a.length + (m - t) * (a.length * b.length))

end BasicComputer.Similarity
