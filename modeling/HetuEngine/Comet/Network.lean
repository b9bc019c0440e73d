/-
A network of nodes that run the consensus state machine.

Any number of nodes, each with its own configuration, clock, application and
private validator, start from states of one chain. An event is delivered to
one node after the other; whatever message a node receives from a peer may
have been sent long ago, many times, or never, so order, duplication and loss
need no rules. What a validator that is not one of the nodes may send is not
restricted either.

# What is assumed

Less than one third of the power of each height belongs to faulty
validators. A signature of another validator cannot be forged: it is on the
bytes of a vote that some node signed with that key (`authentic`), and these
bytes determine what the vote says (`Crypto.Canonical`). The nodes have the
same validators for each height from their applications (`validators`); a
node keeps its key (`key`), and no two nodes have the same one.
-/
import HetuEngine.Comet.State
import HetuEngine.Lib.Along

namespace HetuEngine.Comet

open Lib

/-- The bytes that are signed determine type, height, round and block id. -/
def Crypto.Canonical (c : Crypto) (chainID : String) : Prop :=
  ∀ v w, c.voteSignBytes chainID v = c.voteSignBytes chainID w →
    v.type = w.type ∧ v.height = w.height ∧ v.round = w.round ∧ v.blockID = w.blockID

/-- The power of the validators whose key is one of `p`. -/
def ValidatorSet.powerOf (vals : ValidatorSet) (p : Bytes → Bool) : Int :=
  ((vals.validators.filter fun val => p val.pubKey).map Validator.votingPower).sum

/-- Nodes of one chain, named by `ι`. -/
structure Network (ι : Type) where
  chainID : String
  /-- the validators of each height -/
  validators : Int → ValidatorSet
  /-- the keys of the validators that may do anything -/
  faulty : Bytes → Bool
  config : ι → Config
  chain : ι → ChainState
  lastCommit : ι → Option VoteSet
  pubKey : ι → Option Bytes
  chain_chainID : ∀ x, (chain x).chainID = chainID
  chain_validators : ∀ x, (chain x).validators = validators (chain x).nextHeight
  faulty_power : ∀ h, 3 * (validators h).powerOf faulty < (validators h).totalVotingPower
  pubKey_inj : ∀ x y key, pubKey x = some key → pubKey y = some key → x = y

namespace Network

variable {ι : Type} (c : Primitives) (net : Network ι)

def start (x : ι) : State :=
  State.new (net.config x) (net.chain x) (net.lastCommit x) (net.pubKey x)

/-- What is assumed of an event that is delivered to a node. -/
structure Admits (nodes : ι → State) (x : ι) (e : Event) : Prop where
  authentic : ∀ v peerID, e.input = .message (.vote v) peerID →
    ∀ val ∈ (net.validators v.height).validators,
      net.faulty val.pubKey = false →
      c.signed net.chainID val.pubKey v = true →
      ∃ y, ∃ sg ∈ (nodes y).signed, sg.pubKey = val.pubKey
        ∧ c.voteSignBytes net.chainID sg.vote = c.voteSignBytes net.chainID v
  validators : ∀ st id block st', e.env.applyVerifiedBlock st id block = some st'
    → st'.chainID = net.chainID ∧ st'.validators = net.validators st'.nextHeight
  key : ∀ key, e.env.getPubKey = some key → net.pubKey x = some key

variable [DecidableEq ι]

def deliver (nodes : ι → State) (d : ι × Event) : ι → State :=
  Function.update nodes d.1 ((nodes d.1).receive c d.2)

def run (ds : List (ι × Event)) : ι → State := ds.foldl (deliver c) net.start

/-- Every event that is delivered is admitted where it arrives. -/
def Admissible (ds : List (ι × Event)) : Prop :=
  Along (fun before d => net.Admits c (net.run c before) d.1 d.2) [] ds

end Network

end HetuEngine.Comet
