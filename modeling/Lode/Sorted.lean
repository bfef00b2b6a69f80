/-
# Sorted lists as sets and maps

Finite sets are lists in increasing order without repetition, finite maps are lists of pairs in
increasing order of their keys.  The order is the one of `compare`, so a set or map has one
representation, and the order in which answers list their members is the order of the list.
-/

namespace Lode.Sorted

variable {α κ ν : Type}

/-! ## 1. Sets -/

/-- Adds a member. -/
def insert [Ord α] (a : α) : List α → List α
  | [] => [a]
  | b :: bs =>
    match compare a b with
    | .lt => a :: b :: bs
    | .eq => b :: bs
    | .gt => b :: insert a bs

/-- The members of both sets. -/
def union [Ord α] (s t : List α) : List α := t.foldl (fun acc a => insert a acc) s

/-- The set of the members of a list. -/
def ofList [Ord α] (as : List α) : List α := union [] as

/-! ## 2. Maps -/

/-- The value of a key. -/
def find? [Ord κ] (key : κ) : List (κ × ν) → Option ν
  | [] => none
  | (k, v) :: rest => if compare key k == .eq then some v else find? key rest

/-- Changes the value of a key, which may be new. -/
def alter [Ord κ] (key : κ) (f : Option ν → ν) : List (κ × ν) → List (κ × ν)
  | [] => [(key, f none)]
  | (k, v) :: rest =>
    match compare key k with
    | .lt => (key, f none) :: (k, v) :: rest
    | .eq => (k, f (some v)) :: rest
    | .gt => (k, v) :: alter key f rest

/-- Sets the value of a key. -/
def set [Ord κ] (key : κ) (value : ν) (entries : List (κ × ν)) : List (κ × ν) :=
  alter key (fun _ => value) entries

end Lode.Sorted
