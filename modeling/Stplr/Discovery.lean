import Stplr.Membership
import Stplr.Smart

/-!
# Clients that learn the membership from a coordinator

Membership changes on one coordinator (the calls of `Membership`, and `add_node`), and `refresh` calls
of direct clients, step by step.  A `refresh` asks `GET /members`, which reads the client table and
then the epoch; unless the answer has the epoch that the client has on record, the client takes over
the members and then the epoch.  A label says which call moves.
-/

namespace Stplr

/-- The ids of a table in ascending order. -/
def sortedIds (ids : Finset NodeId) : List NodeId :=
  Quotient.liftOn ids.val (fun l => l.insertionSort (· ≤ ·)) fun l l' h =>
    List.Perm.eq_of_pairwise (fun _ _ _ _ => le_antisymm) (List.pairwise_insertionSort _ l)
      (List.pairwise_insertionSort _ l')
      ((List.perm_insertionSort _ l).trans (h.trans (List.perm_insertionSort _ l').symm))

/-- `members_with_endpoints`: the client table in ascending order. -/
def Cluster.membersWithEndpoints (c : Cluster) (endpoint : NodeId → String) :
    List (NodeId × String) :=
  (sortedIds c.clients).map fun id => (id, endpoint id)

/-- Where a `refresh` stands. -/
inductive RefreshPc where
  | idle
  /-- The coordinator has read the client table; it reads the epoch next. -/
  | listed (members : List (NodeId × String))
  /-- The answer is there. -/
  | answered (members : List (NodeId × String)) (epoch : ℕ)
  /-- The answer is to be taken over. -/
  | accepted (members : List (NodeId × String)) (epoch : ℕ)
  /-- The clients are replaced. -/
  | connected (members : List (NodeId × String)) (epoch : ℕ)
  /-- The ring is replaced; the epoch is recorded next. -/
  | routed (members : List (NodeId × String)) (epoch : ℕ)
  | returned

/-- A `refresh` of the client with the given number. -/
structure Refresh where
  client : ℕ
  pc : RefreshPc

/-- A coordinator and its direct clients.  `endpoint` is where the node of a client in the table is
found; `offers` are the endpoints that the membership calls bring along. -/
structure Discovery (St : Type) where
  coordinator : Coordinator St
  endpoint : NodeId → String
  offers : List (List (NodeId × String))
  refreshes : List Refresh
  clients : List SmartClient

inductive DiscoveryLabel where
  /-- A membership change is asked for, with clients for the given endpoints. -/
  | request (r : MemberRequest) (offer : List (NodeId × String))
  /-- The next step of a membership change. -/
  | change (i : ℕ)
  | addNode (id : NodeId) (endpoint : String)
  /-- `refresh` is called on a client. -/
  | refresh (client : ℕ)
  /-- The next step of a `refresh`. -/
  | move (i : ℕ)

namespace Discovery

variable {St : Type}

/-- The coordinator's state. -/
def cluster (s : Discovery St) : Cluster := s.coordinator.world.cluster

/-- The state once refresh `i` has moved. -/
def put (s : Discovery St) (i : ℕ) (r : Refresh) : Discovery St :=
  { s with refreshes := s.refreshes.set i r }

/-- A write of refresh `r` to its client. -/
def write (s : Discovery St) (r : Refresh) (f : SmartClient → SmartClient) : Discovery St :=
  { s with clients := s.clients.modify r.client f }

/-- The next step of refresh `i`, which is `r`, on the client `sc`. -/
def refreshStep (s : Discovery St) (i : ℕ) (r : Refresh) (sc : SmartClient) :
    Option (Discovery St) :=
  match r.pc with
  | .idle => some (s.put i ⟨r.client, .listed (s.cluster.membersWithEndpoints s.endpoint)⟩)
  | .listed members => some (s.put i ⟨r.client, .answered members s.cluster.epoch⟩)
  | .answered members epoch =>
    if sc.unchanged epoch ∨ members = [] then some (s.put i ⟨r.client, .returned⟩)
    else some (s.put i ⟨r.client, .accepted members epoch⟩)
  | .accepted members epoch =>
    some ((s.write r (·.setClients members)).put i ⟨r.client, .connected members epoch⟩)
  | .connected members epoch =>
    some ((s.write r (·.setNodes members)).put i ⟨r.client, .routed members epoch⟩)
  | .routed _ epoch => some ((s.write r (·.setEpoch epoch)).put i ⟨r.client, .returned⟩)
  | .returned => none

/-- The endpoints once a call has added clients: a node that is in the table keeps its client. -/
def withOffer (s : Discovery St) (offer : List (NodeId × String)) : NodeId → String :=
  fun n => if n ∈ s.cluster.clients then s.endpoint n else (offer.lookup n).getD (s.endpoint n)

variable [IndexStore St]

def step (net : MigCall → Outcome) (s : Discovery St) : DiscoveryLabel → Option (Discovery St)
  | .request r offer => some { s with
      coordinator := { s.coordinator with callers := s.coordinator.callers ++ [⟨r, .idle⟩] }
      offers := s.offers ++ [offer] }
  | .change i => (s.coordinator.step net i).map fun c => { s with
      coordinator := c
      endpoint := s.withOffer (s.offers[i]?.getD []) }
  | .addNode id ep => some { s with
      coordinator := { s.coordinator with
        world := s.coordinator.world.setCluster (s.cluster.addNode id) }
      endpoint := Function.update s.endpoint id ep }
  | .refresh j => some { s with refreshes := s.refreshes ++ [⟨j, .idle⟩] }
  | .move i => (s.refreshes[i]?).bind fun r => (s.clients[r.client]?).bind fun sc =>
      s.refreshStep i r sc

end Discovery

end Stplr
