import Mathlib.Data.List.AList
import Mathlib.Data.List.Sort

/-!
# Rendezvous hashing over virtual buckets

A key falls in one of `numBuckets` buckets (`bucketOf`, FNV-1a over its UTF-16 code units); each
bucket ranks the nodes by a mixed hash (`bucketScore`), and its first `R` nodes own it.  With a
topology the `R` owners are taken down the ranking preferring racks not used yet (`pick`).

`set_nodes` of the source caches the ranking of every bucket; the ranking is a function of the
node list alone, so it is recomputed here (`Partitioner.ranked`).  The source's sort is stable
and descending; so is `List.insertionSort` for the relation used.
-/

namespace Stplr

/-- Node identifiers. -/
abbrev NodeId := String

/-- Node → rack/zone; empty means plain rendezvous order. -/
abbrev Topology := AList fun _ : NodeId => String

/-- `NUM_BUCKETS`. -/
def numBuckets : ℕ := 4096

/-- The UTF-16 code units of a character. -/
def encodeUtf16 (c : Char) : List UInt32 := if c.val < 0x10000 then [c.val]
  else
    let v := c.val - 0x10000
    [0xD800 + (v >>> (10 : UInt32)), 0xDC00 + (v &&& (0x3FF : UInt32))]

/-- FNV-1a over the UTF-16 code units of a string, with wrapping `u32` arithmetic. -/
def fnv1a (s : String) : UInt32 :=
  (s.toList.flatMap encodeUtf16).foldl (fun h u => (h ^^^ u) * 0x01000193) 0x811c9dc5

/-- The bucket a key falls in. -/
def bucketOf (key : String) : ℕ := (fnv1a key % 4096).toNat

/-- The rendezvous weight of a node (by its hash) for a bucket. -/
def bucketScore (nodeHash : UInt32) (bucket : ℕ) : UInt32 :=
  let h := nodeHash ^^^ ((bucket.toUInt32 + 1) * 0x9e3779b1)
  let h := (h ^^^ (h >>> 15)) * 0x85ebca6b
  h ^^^ (h >>> 13)

/-- The member list and the topology of a ring. -/
structure Partitioner where
  nodes : List NodeId
  topology : Topology

namespace Partitioner

/-- A ring without topology. -/
def new (nodes : List NodeId) : Partitioner := ⟨nodes, ∅⟩

def setTopology (p : Partitioner) (topology : Topology) : Partitioner := { p with topology }

def setNodes (p : Partitioner) (nodes : List NodeId) : Partitioner := { p with nodes }

/-- The nodes ranked by score for a bucket, best first, ties in list order. -/
def ranked (p : Partitioner) (bucket : ℕ) : List NodeId :=
  p.nodes.insertionSort fun a c => bucketScore (fnv1a c) bucket ≤ bucketScore (fnv1a a) bucket

/-- The failure domain of a node: its rack, or the node itself when it has none. -/
def domain (p : Partitioner) (n : NodeId) : String := (p.topology.lookup n).getD n

/-- First pass of `pick`: down the list, a node is taken when its domain is new, until `r` nodes
are chosen.  Returns the nodes in the order chosen. -/
def pickDomains (p : Partitioner) (r : ℕ) : List NodeId → List NodeId → List String → List NodeId
  | [], chosen, _ => chosen
  | n :: pl, chosen, used =>
    if r ≤ chosen.length then chosen
    else if p.domain n ∈ used then pickDomains p r pl chosen used
    else pickDomains p r pl (chosen ++ [n]) (p.domain n :: used)

/-- Second pass of `pick`: fills the remaining slots in ranking order. -/
def pickFill (r : ℕ) : List NodeId → List NodeId → List NodeId
  | [], chosen => chosen
  | n :: pl, chosen =>
    if r ≤ chosen.length then chosen
    else if n ∈ chosen then pickFill r pl chosen
    else pickFill r pl (chosen ++ [n])

/-- The `r` owners down a preference list. -/
def pick (p : Partitioner) (pl : List NodeId) (r : ℕ) : List NodeId :=
  let r := min r p.nodes.length
  if p.topology.entries = [] then pl.take r
  else
    let chosen := p.pickDomains r pl [] []
    if chosen.length < r then pickFill r pl chosen else chosen

/-- The `r` owners of a bucket. -/
def ownersOfBucket (p : Partitioner) (bucket r : ℕ) : List NodeId := p.pick (p.ranked bucket) r

/-- The `r` nodes that hold a key. -/
def replicaSet (p : Partitioner) (key : String) (r : ℕ) : List NodeId :=
  p.pick (p.ranked (bucketOf key)) r

end Partitioner

end Stplr
