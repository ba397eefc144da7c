import Mathlib

-- Clusters of vectors by density.

namespace GizClaw.VecID

variable {n : Nat} {V : Type}

-- `within q v` is a cosine distance of at most `eps`.
structure Input (n : Nat) (V : Type) where
  vectors : Fin n → V
  within : V → V → Bool
  minPts : Int

abbrev Labels (n : Nat) :=
  Fin n → Int

def undefined : Int :=
  0

def noise : Int :=
  -1

section Clusters

variable (x : Input n V)

def rangeQuery (idx : Fin n) : List (Fin n) :=
  (List.finRange n).filter fun i => x.within (x.vectors idx) (x.vectors i)

-- The loop over the seeds of a cluster. A vector that is labelled adds at most `n` seeds, so that
-- the loop is over before the fuel is.
def expand (clusterID : Int) : Nat → Labels n → List (Fin n) → Labels n
  | 0, labels, _ => labels
  | _ + 1, labels, [] => labels
  | fuel + 1, labels, q :: seed =>
    let labels := if labels q = noise then Function.update labels q clusterID else labels
    if labels q ≠ undefined then
      expand clusterID fuel labels seed
    else
      let labels := Function.update labels q clusterID
      let qNeighbors := rangeQuery x q
      if x.minPts ≤ qNeighbors.length then expand clusterID fuel labels (seed ++ qNeighbors)
      else expand clusterID fuel labels seed

-- The labels and the number of clusters after one more vector.
def visit (state : Labels n × Int) (i : Fin n) : Labels n × Int :=
  let (labels, clusterID) := state
  if labels i ≠ undefined then
    (labels, clusterID)
  else
    let neighbors := rangeQuery x i
    if neighbors.length < x.minPts then
      (Function.update labels i noise, clusterID)
    else
      let clusterID := clusterID + 1
      (expand x clusterID (n + n * n) (Function.update labels i clusterID)
        (neighbors.filter (· ≠ i)), clusterID)

def dbscan : Labels n :=
  ((List.finRange n).foldl (visit x) (fun _ => undefined, 0)).fst

end Clusters

end GizClaw.VecID
