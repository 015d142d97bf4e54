import Arca.Time

/-!
# Cluster membership

The probe loop keeps one entry per endpoint and publishes from it the list of
peers that replication, quorum counting and tombstone collection read. The map of
known endpoints is a list of entries here; nothing depends on its order. Disk
statistics and log transitions are left out.
-/
namespace Arca.Cluster

inductive AuthState where
  | proven
  | badMac
  | authRejected
  | legacy
  deriving DecidableEq

structure ContactInfo where
  nodeId : String
  auth : AuthState
  fingerprint : Option String
  fingerprintV2 : Option String

inductive ProbeOutcome where
  | contact (info : ContactInfo)
  | selfNode
  | failure

structure PeerNode where
  nodeId : String
  endpoint : String
  alive : Bool
  lastSeen : Option Instant
  authenticated : Bool
  configOk : Bool
  deriving DecidableEq

def PeerNode.eligible (p : PeerNode) : Bool := p.alive && p.authenticated && p.configOk

structure ProbeState where
  nodeId : Option String
  consecutiveFailures : Nat
  lastContact : Option Instant
  lastLive : Option PeerNode

namespace ProbeState

def fresh : ProbeState := ⟨none, 0, none, none⟩

end ProbeState

/-- A dead peer is declared after this many failed probes in a row. -/
def deadAfterFailures : Nat := 2

/-- Fingerprints unknown on either side are no drift. -/
def contactConfigOk (info : ContactInfo) (mine mineV2 : Option String) : Bool :=
  if info.auth = .authRejected then false
  else match mineV2, info.fingerprintV2 with
  | some a, some b => a = b
  | _, _ =>
    match mine, info.fingerprint with
    | some a, some b => a = b
    | _, _ => true

structure Membership where
  fingerprint : Option String
  fingerprintV2 : Option String
  pruneAfter : Int
  known : List (String × ProbeState)

namespace Membership

def discover (known : List (String × ProbeState)) (endpoint : String) : List (String × ProbeState) :=
  if known.any fun k => k.1 = endpoint then known else known ++ [(endpoint, .fresh)]

variable (m : Membership)

def integrate (now : Instant) (endpoint : String) (ps : ProbeState) : ProbeOutcome → ProbeState
  | .selfNode => ⟨none, 0, some now, none⟩
  | .contact info =>
    { nodeId := some info.nodeId, consecutiveFailures := 0, lastContact := some now
      lastLive := some
        { nodeId := info.nodeId, endpoint, alive := true, lastSeen := some now
          authenticated := info.auth = .proven
          configOk := contactConfigOk info m.fingerprint m.fingerprintV2 } }
  | .failure => { ps with consecutiveFailures := ps.consecutiveFailures + 1 }

def stale (now : Instant) (ps : ProbeState) : Bool :=
  0 < ps.consecutiveFailures && ps.lastContact.any fun t => m.pruneAfter < now - t

def tick (candidates : List String) (outcome : String → ProbeOutcome)
    (now : Instant) : Membership :=
  let known := candidates.foldl discover m.known
  let probed := known.map fun (endpoint, ps) =>
    (endpoint, m.integrate now endpoint ps (outcome endpoint))
  { m with known := probed.filter fun (_, ps) => !m.stale now ps }

/-- A peer of unknown identity is not published. The last live view is kept for
one failed probe. -/
def emitPeer (ps : ProbeState) : Option PeerNode :=
  match ps.nodeId with
  | none => none
  | some nodeId =>
    if ps.consecutiveFailures < deadAfterFailures then ps.lastLive
    else some
      { nodeId, endpoint := (ps.lastLive.map PeerNode.endpoint).getD "", alive := false
        lastSeen := ps.lastContact, authenticated := false, configOk := true }

def peers : List PeerNode := m.known.filterMap fun (_, ps) => emitPeer ps

end Membership

def tombstoneGcBlockers (peers : List PeerNode) (now : Instant) (grace : Int) : List PeerNode :=
  peers.filter fun p => !p.alive && !p.lastSeen.any fun seen => now - grace ≤ seen

inductive WriteGate where
  | isOpen
  | noQuorum (eligible quorum : Nat)
  | sizeExceeded (eligible clusterSize : Nat)
  deriving DecidableEq

/-- The admission gate of a write; without a quorum it is always open. -/
def writeGate (quorum clusterSize : Option Nat) (peers : List PeerNode) : WriteGate :=
  match quorum with
  | none => .isOpen
  | some q =>
    let eligible := (peers.filter PeerNode.eligible).length + 1
    if clusterSize.any fun size => size < eligible then
      .sizeExceeded eligible (clusterSize.getD 0)
    else if eligible < q then .noQuorum eligible q
    else .isOpen

def quorumSatisfied (acks : Nat) : Option Nat → Bool
  | none => true
  | some q => q ≤ acks

end Arca.Cluster
