/-!
Finite maps as association lists in strictly increasing order of their keys. Insertion keeps the order
(`put_sorted`), and a map is determined by its list (`ext`).
-/

namespace Invariance

/-- A finite map whose entries stand in increasing order of their keys, each key once. -/
structure SortedMap (κ ν : Type) [Ord κ] where
  toList : List (κ × ν)
  sorted : toList.Pairwise fun a b => compare a.1 b.1 = .lt

namespace SortedMap

variable {κ ν : Type} [Ord κ]

/-- The first value stored under a key that compares equal to `k`. -/
def find? (k : κ) : List (κ × ν) → Option ν
  | [] => none
  | (l, v) :: rest => if compare k l = .eq then some v else find? k rest

/-- Puts an entry at its place, over one of the same key. -/
def put (k : κ) (v : ν) : List (κ × ν) → List (κ × ν)
  | [] => [(k, v)]
  | (l, w) :: rest =>
    match compare k l with
    | .lt => (k, v) :: (l, w) :: rest
    | .eq => (k, v) :: rest
    | .gt => (l, w) :: put k v rest

theorem mem_put {k : κ} {v : ν} {e : κ × ν} {l : List (κ × ν)} (h : e ∈ put k v l) :
    e = (k, v) ∨ e ∈ l := by
  fun_induction put with grind

theorem put_sorted [Std.TransOrd κ] [Std.LawfulEqOrd κ] (k : κ) (v : ν) {l : List (κ × ν)}
    (h : l.Pairwise fun a b => compare a.1 b.1 = .lt) :
    (put k v l).Pairwise fun a b => compare a.1 b.1 = .lt := by
  fun_induction put with
  | case1 => simp
  | case2 l w rest hlt =>
    refine List.pairwise_cons.mpr ⟨fun e he => ?_, h⟩
    rcases List.mem_cons.mp he with rfl | he
    · exact hlt
    · exact Std.TransCmp.lt_trans hlt ((List.pairwise_cons.mp h).1 e he)
  | case3 l w rest heq =>
    obtain ⟨h1, h2⟩ := List.pairwise_cons.mp h
    cases Std.LawfulEqOrd.eq_of_compare heq
    exact List.pairwise_cons.mpr ⟨h1, h2⟩
  | case4 l w rest hgt ih =>
    obtain ⟨h1, h2⟩ := List.pairwise_cons.mp h
    refine List.pairwise_cons.mpr ⟨fun e he => ?_, ih h2⟩
    rcases mem_put he with rfl | he
    · exact Std.OrientedCmp.gt_iff_lt.mp hgt
    · exact h1 e he

/-- The map without entries. -/
def empty : SortedMap κ ν := ⟨[], .nil⟩

instance : Inhabited (SortedMap κ ν) := ⟨empty⟩

/-- The value stored under a key. -/
def get? (m : SortedMap κ ν) (k : κ) : Option ν :=
  find? k m.toList

/-- The map with `v` under `k`. -/
def insert [Std.TransOrd κ] [Std.LawfulEqOrd κ] (m : SortedMap κ ν) (k : κ) (v : ν) :
    SortedMap κ ν :=
  ⟨put k v m.toList, put_sorted k v m.sorted⟩

/-- The map with nothing under `k`. -/
def erase (m : SortedMap κ ν) (k : κ) : SortedMap κ ν :=
  ⟨m.toList.filter fun e => compare k e.1 ≠ .eq, m.sorted.filter _⟩

/-- The map with the given entries, the later of two with one key. -/
def ofList [Std.TransOrd κ] [Std.LawfulEqOrd κ] (l : List (κ × ν)) : SortedMap κ ν :=
  l.foldl (fun m e => m.insert e.1 e.2) empty

def size (m : SortedMap κ ν) : Nat :=
  m.toList.length

/-- The keys in increasing order. -/
def keys (m : SortedMap κ ν) : List κ :=
  m.toList.map (·.1)

theorem ext {m n : SortedMap κ ν} (h : m.toList = n.toList) : m = n := by
  cases m; cases n; cases h; rfl

instance [DecidableEq κ] [DecidableEq ν] : DecidableEq (SortedMap κ ν) := fun m n =>
  if h : m.toList = n.toList then isTrue (ext h) else isFalse fun e => h (congrArg toList e)

end SortedMap

/-- A finite set, kept in increasing order. -/
abbrev SortedSet (κ : Type) [Ord κ] := SortedMap κ Unit

namespace SortedSet

variable {κ : Type} [Ord κ]

/-- The elements of a list, in increasing order and each once. -/
def ofList [Std.TransOrd κ] [Std.LawfulEqOrd κ] (l : List κ) : SortedSet κ :=
  l.foldl (fun s k => s.insert k ()) SortedMap.empty

/-- The elements in increasing order. -/
def elements (s : SortedSet κ) : List κ :=
  s.keys

def contains (s : SortedSet κ) (k : κ) : Bool :=
  (s.get? k).isSome

end SortedSet

end Invariance
