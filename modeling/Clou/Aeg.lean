import Clou.Cfg
import Clou.Z3

/-! The abstract event graph: execution variables, transient fetch order edges, and
the constraints asserted for one execution window. -/

namespace Clou

open Z3

structure Valuation where
  arch : NodeRef → Bool
  trans : NodeRef → Bool
  read : NodeRef → Bool
  write : NodeRef → Bool
  tfo : NodeRef → NodeRef → Bool

structure Aeg where
  po : Cfg
  deref : InstRef → Inst
  leakageClass : LeakageClass
  specDepth : Nat
  lsqSize : Option Nat

namespace Aeg

def size (aeg : Aeg) : Nat := aeg.po.size

def nodeRange (aeg : Aeg) : List NodeRef := List.range aeg.size

def entry (_ : Aeg) : NodeRef := 0

def isExit (aeg : Aeg) (ref : NodeRef) : Bool := decide (aeg.po.variant ref = some .exit)

def exits (aeg : Aeg) : List NodeRef := aeg.nodeRange.filter aeg.isExit

def isSpecial (aeg : Aeg) (ref : NodeRef) : Bool :=
  match aeg.po.variant ref with
  | some .entry => true
  | some .exit => true
  | _ => false

def isFence (aeg : Aeg) (ref : NodeRef) : Bool :=
  match aeg.po.variant ref with
  | some (.inst I) => (aeg.deref I).isFence
  | _ => false

def mayIntroduceSpeculation (aeg : Aeg) (ref : NodeRef) : Bool :=
  aeg.po.mayIntroduceSpeculation aeg.deref aeg.leakageClass ref

/-- Whether a node gets a transient variable at all, given the answers for the nodes
before it. -/
def getTrans (aeg : Aeg) (trans : List Bool) (ref : NodeRef) : Bool :=
  if ref = aeg.entry then false
  else if ref ∈ aeg.exits then false
  else if aeg.isFence ref then false
  else (aeg.po.po.preds ref).any (fun pred =>
    aeg.mayIntroduceSpeculation pred || trans.getD pred false)

/-- The walk in reverse postorder visits the nodes by number. -/
def initTrans (aeg : Aeg) : Nat → List Bool
  | 0 => []
  | n + 1 => aeg.initTrans n ++ [aeg.getTrans (aeg.initTrans n) n]

def minSpecIn (aeg : Aeg) (minSpecsOut : List Nat) (ref : NodeRef) : Nat :=
  ((aeg.po.po.preds ref).map (minSpecsOut.getD · 0)).foldr min aeg.specDepth

/-- The least distance to a node that may start speculation, capped by the depth. The
increment is made on a 32-bit unsigned. -/
def minSpecsOut (aeg : Aeg) : Nat → List Nat
  | 0 => []
  | n + 1 =>
    let outs := aeg.minSpecsOut n
    outs ++ [if aeg.mayIntroduceSpeculation n then 0
      else min aeg.specDepth ((aeg.minSpecIn outs n + 1) % 2 ^ 32)]

def mayTrans (aeg : Aeg) (ref : NodeRef) : Bool :=
  aeg.getTrans (aeg.initTrans ref) ref &&
    decide (aeg.minSpecIn (aeg.minSpecsOut ref) ref < aeg.specDepth)

def arch (aeg : Aeg) (ref : NodeRef) : BoolExpr Valuation :=
  if ref = aeg.entry then boolVal true else boolConst (·.arch ref)

def trans (aeg : Aeg) (ref : NodeRef) : BoolExpr Valuation :=
  if aeg.mayTrans ref then boolConst (·.trans ref) else boolVal false

def exec (aeg : Aeg) (ref : NodeRef) : BoolExpr Valuation := or (aeg.arch ref) (aeg.trans ref)

def access (ref : NodeRef) : BoolExpr Valuation :=
  or (boolConst (·.read ref)) (boolConst (·.write ref))

def tfo (src dst : NodeRef) : BoolExpr Valuation := boolConst (·.tfo src dst)

/-- The targets of the fetch order edges that leave a node: none leaves the entry or
an exit. -/
def tfoDsts (aeg : Aeg) (src : NodeRef) : List NodeRef :=
  if src = aeg.entry ∨ src ∈ aeg.exits then [] else aeg.po.po.succs src

def tfoSrcs (aeg : Aeg) (dst : NodeRef) : List NodeRef :=
  aeg.nodeRange.filter (fun src => dst ∈ aeg.tfoDsts src)

def tfoEdges (aeg : Aeg) : List (NodeRef × NodeRef) :=
  aeg.nodeRange.flatMap (fun src => (aeg.tfoDsts src).map (src, ·))

def tfoCond (aeg : Aeg) (src dst : NodeRef) : BoolExpr Valuation :=
  mkOr ([and (aeg.arch src) (aeg.arch dst)] ++
    (if aeg.mayIntroduceSpeculation src then [and (aeg.arch src) (aeg.trans dst)] else []) ++
    [and (aeg.trans src) (aeg.trans dst)])

def constructTfo (aeg : Aeg) : List (Constraint Valuation) :=
  aeg.tfoEdges.map (fun edge => (implies (tfo edge.1 edge.2) (aeg.tfoCond edge.1 edge.2), "tfo"))

/-- The nodes an execution may use: valid references, with the entry and an only exit. -/
structure Window (aeg : Aeg) where
  refs : List NodeRef
  valid : ∀ ref ∈ refs, ref < aeg.size
  entry_mem : aeg.entry ∈ refs
  exit : NodeRef
  exits_eq : aeg.exits = [exit]
  exit_mem : exit ∈ refs

variable (aeg : Aeg) (window : List NodeRef)

def constrainArch : List (Constraint Valuation) :=
  [(exactly ((aeg.exits.filter (· ∈ window)).map aeg.arch) 1, "one-exit-arch"),
    (mkOr ((window.filter (fun ref => !aeg.isSpecial ref)).map aeg.arch), "one-regular-arch")]

def tfoIns (ref : NodeRef) : List (BoolExpr Valuation) :=
  ((aeg.tfoSrcs ref).filter (· ∈ window)).map (tfo · ref)

def tfoOuts (ref : NodeRef) : List (BoolExpr Valuation) :=
  ((aeg.tfoDsts ref).filter (· ∈ window)).map (tfo ref ·)

def constrainTrans : List (Constraint Valuation) :=
  window.map (fun ref =>
    (implies (aeg.trans ref) (exactly (aeg.tfoIns window ref) 1), "trans-tfo:" ++ toString ref)) ++
  [(atmost2 (window.map aeg.trans) aeg.specDepth, "trans-limit-max")] ++
  match aeg.leakageClass, aeg.lsqSize with
  | .spectreV4, some lsqSize =>
    [(atmost2 (window.map (fun ref => and (aeg.trans ref) (access ref))) lsqSize,
      "lsq-upper-bound")]
  | _, _ => []

def constrainExec : List (Constraint Valuation) :=
  window.map (fun ref =>
    (not (and (aeg.arch ref) (aeg.trans ref)), "excl-exec:" ++ toString ref)) ++
  aeg.constrainTrans window

def tfoSucc (src : NodeRef) : List (Constraint Valuation) :=
  if src ∈ aeg.exits then []
  else [(implies (aeg.exec src) (atmost2 (aeg.tfoOuts window src) 1), "tfo-succ:" ++ toString src)]

def tfoPred (src : NodeRef) : List (Constraint Valuation) :=
  if src = aeg.entry then []
  else [(implies (aeg.trans src) (exactly (aeg.tfoIns window src) 1), "tfo-pred:" ++ toString src)]

def coldRefs : List NodeRef :=
  aeg.po.reversePostorder.filter (fun ref => ref ≠ aeg.entry ∧ ref ∉ aeg.exits ∧ ref ∈ window)

def coldStart (ref : NodeRef) : BoolExpr Valuation :=
  and (aeg.arch ref) (not (mkOr (aeg.tfoIns window ref)))

def constrainTfo : List (Constraint Valuation) :=
  window.flatMap (fun src => aeg.tfoSucc window src ++ aeg.tfoPred window src) ++
  [(atmost2 ((aeg.tfoEdges.filter (fun edge => edge.1 ∈ window ∧ edge.2 ∈ window)).map (fun edge =>
      and (and (aeg.arch edge.1) (aeg.trans edge.2)) (tfo edge.1 edge.2))) 1,
    "at-most-one-spec-intro"),
  (exactly ((aeg.coldRefs window).map (aeg.coldStart window)) 1, "one-cold-start")]

def execNotWindow : List (Constraint Valuation) :=
  (aeg.po.reversePostorder.filter (· ∉ window)).map (fun ref => (not (aeg.exec ref), "window"))

/-- Everything about execution that is asserted before one transmitter is examined. -/
def assertions : List (Constraint Valuation) :=
  aeg.execNotWindow window ++ aeg.constrainArch window ++ aeg.constrainExec window ++
    aeg.constrainTfo window ++ aeg.constructTfo

end Aeg

def Satisfies (v : Valuation) (constraints : List (Constraint Valuation)) : Prop :=
  ∀ constraint ∈ constraints, constraint.1.eval v = true

instance (v : Valuation) (constraints : List (Constraint Valuation)) :
    Decidable (Satisfies v constraints) :=
  inferInstanceAs (Decidable (∀ constraint ∈ constraints, constraint.1.eval v = true))

end Clou
