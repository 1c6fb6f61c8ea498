/-!
# Vectors and matrices

Dense vectors and matrices of a fixed size over any type of numbers. All of
them are built entry by entry from a function, and read entry by entry, so a
statement about a product is a statement about a sum.

Sums are taken from left to right, starting from zero.

Main results: an entry of what is built from a function is the value of the
function (`Vec.entry_ofFn`, `Mat.entry_ofFn`).
-/

namespace StochasticGrammar

/-- A vector of `n` numbers. -/
abbrev Vec (α : Type) (n : Nat) := Vector α n

/-- A matrix of `n` rows and `m` columns. -/
abbrev Mat (α : Type) (n m : Nat) := Vector (Vector α m) n

/-- A row of `n` square matrices. -/
abbrev Tensor (α : Type) (n : Nat) := Vector (Mat α n n) n

variable {α : Type} {n m : Nat}

/-- The sum of the values of a function. -/
def sumOver [Zero α] [Add α] (n : Nat) (f : Fin n → α) : α :=
  Fin.foldl n (fun total i => total + f i) 0

namespace Vec

/-- The vector with given entries. -/
def ofFn (f : Fin n → α) : Vec α n := Vector.ofFn f

/-- An entry of a vector. -/
def entry (x : Vec α n) (i : Fin n) : α := x[i]

/-- The inner product of two vectors. -/
def dot [Zero α] [Add α] [Mul α] (x y : Vec α n) : α :=
  sumOver n fun i => x.entry i * y.entry i

@[simp] theorem entry_ofFn (f : Fin n → α) (i : Fin n) :
    (ofFn f).entry i = f i := by
  simp [entry, ofFn]

end Vec

namespace Mat

/-- The matrix with given entries. -/
def ofFn (f : Fin n → Fin m → α) : Mat α n m :=
  Vector.ofFn fun i => Vector.ofFn fun j => f i j

/-- A row of a matrix. -/
def row (a : Mat α n m) (i : Fin n) : Vec α m := a[i]

/-- An entry of a matrix. -/
def entry (a : Mat α n m) (i : Fin n) (j : Fin m) : α := (a.row i).entry j

/-- The entry of the unit matrix. -/
def delta [Zero α] [One α] (i j : Fin n) : α := if i = j then 1 else 0

/-- The matrix less the unit matrix. -/
def subOne [Zero α] [One α] [Sub α] (a : Mat α n n) : Mat α n n :=
  ofFn fun i j => a.entry i j - delta i j

/-- The product of a matrix and a vector. -/
def mulVec [Zero α] [Add α] [Mul α] (a : Mat α n m) (x : Vec α m) : Vec α n :=
  .ofFn fun i => sumOver m fun j => a.entry i j * x.entry j

/-- The product of the transpose of a matrix and a vector. -/
def transposeMulVec [Zero α] [Add α] [Mul α] (a : Mat α n m) (x : Vec α n) :
    Vec α m :=
  .ofFn fun j => sumOver n fun i => a.entry i j * x.entry i

/-- The product of the transpose of a matrix with the matrix itself. -/
def gram [Zero α] [Add α] [Mul α] (a : Mat α n m) : Mat α m m :=
  ofFn fun j k => sumOver n fun i => a.entry i j * a.entry i k

/-- The matrix with the sign of every entry changed. -/
def neg [Neg α] (a : Mat α n m) : Mat α n m :=
  ofFn fun i j => -a.entry i j

@[simp] theorem entry_ofFn (f : Fin n → Fin m → α) (i : Fin n) (j : Fin m) :
    (ofFn f).entry i j = f i j := by
  simp [entry, row, Vec.entry, ofFn]

end Mat

/-- One of a row of matrices. -/
def Tensor.slice (a : Tensor α n) (i : Fin n) : Mat α n n := a[i]

end StochasticGrammar
