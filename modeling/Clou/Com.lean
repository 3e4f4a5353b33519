import Clou.Aeg

/-! Communication between the nodes of an event graph: which of them access memory and
microarchitectural state, and the terms under which one communicates with another. -/

namespace Clou

open Z3

/-- The part of a solver model that communication reads besides the execution variables.
`address` is what it makes of the address term of a memory node. -/
structure ComValuation extends Valuation where
  address : NodeRef → Int
  xsread : NodeRef → Bool
  xswrite : NodeRef → Bool
  xstate : NodeRef → Int
  xsaccessOrder : NodeRef → Int

namespace Com

/-- Whether a kind of node always, sometimes or never performs an access. -/
inductive Opt where
  | must
  | may
  | no
  deriving DecidableEq, Repr

inductive Kind where
  | entry
  | exit
  | load
  | store
  | fence
  | call
  | other
  deriving DecidableEq, Repr

namespace Kind

def isMemory : Kind → Bool
  | .load | .store | .call => true
  | _ => false

def mayRead : Kind → Opt
  | .exit | .load => .must
  | .call => .may
  | _ => .no

def mayWrite : Kind → Opt
  | .entry | .store => .must
  | .call => .may
  | _ => .no

def mayXsread : Kind → Opt
  | .exit | .load | .store => .must
  | .call => .may
  | _ => .no

def mayXswrite : Kind → Opt
  | .entry | .store => .must
  | .load | .call => .may
  | _ => .no

end Kind

/-- The kind of node that is created for an instruction. -/
def create (I : Inst) : Kind :=
  if I.isFence then .fence else if I.isLoad then .load else if I.isStore then .store else .other

inductive Access where
  | read
  | write
  deriving DecidableEq, Repr

inductive EdgeKind where
  | rf
  | co
  | fr
  | rfx
  | cox
  | frx
  deriving DecidableEq, Repr

variable (aeg : Aeg)

def kind (ref : NodeRef) : Kind :=
  match aeg.po.variant ref with
  | some .entry => .entry
  | some .exit => .exit
  | some (.inst I) => create (aeg.deref I)
  | some (.call ..) => .call
  | none => .other

def arch (ref : NodeRef) : BoolExpr ComValuation := (aeg.arch ref).comap (·.toValuation)

def exec (ref : NodeRef) : BoolExpr ComValuation := (aeg.exec ref).comap (·.toValuation)

def makeAccess (option : Opt) (value : ComValuation → Bool) : BoolExpr ComValuation :=
  match option with
  | .must => boolVal true
  | .may => boolConst value
  | .no => boolVal false

def read (ref : NodeRef) : BoolExpr ComValuation := makeAccess (kind aeg ref).mayRead (·.read ref)
def write (ref : NodeRef) : BoolExpr ComValuation := makeAccess (kind aeg ref).mayWrite (·.write ref)
def xsread (ref : NodeRef) : BoolExpr ComValuation :=
  makeAccess (kind aeg ref).mayXsread (·.xsread ref)
def xswrite (ref : NodeRef) : BoolExpr ComValuation :=
  makeAccess (kind aeg ref).mayXswrite (·.xswrite ref)
def xsaccess (ref : NodeRef) : BoolExpr ComValuation := or (xsread aeg ref) (xswrite aeg ref)

def mayRead (ref : NodeRef) : Bool := decide ((kind aeg ref).mayRead ≠ .no)
def mayWrite (ref : NodeRef) : Bool := decide ((kind aeg ref).mayWrite ≠ .no)

def mayAccess : Access → NodeRef → Bool
  | .read => mayRead aeg
  | .write => mayWrite aeg

def hasXstate (ref : NodeRef) : Bool :=
  !aeg.isSpecial ref &&
    (decide ((kind aeg ref).mayXsread ≠ .no) || decide ((kind aeg ref).mayXswrite ≠ .no))

def memoryAddress (ref : NodeRef) : Term ComValuation Int := (·.address ref)
def xstate (ref : NodeRef) : Term ComValuation Int := (·.xstate ref)
def xsaccessOrder (ref : NodeRef) : Term ComValuation Int := (·.xsaccessOrder ref)

def sameAddr (a b : NodeRef) : BoolExpr ComValuation :=
  if aeg.isSpecial a || aeg.isSpecial b then boolVal true
  else eq (memoryAddress a) (memoryAddress b)

def sameXstate (a b : NodeRef) : BoolExpr ComValuation :=
  if aeg.isSpecial a || aeg.isSpecial b then boolVal true
  else if (xsaccess aeg a).isFalse || (xsaccess aeg b).isFalse then boolVal false
  else eq (xstate a) (xstate b)

def accessOrderLess (a b : NodeRef) : Bool :=
  decide (aeg.po.reversePostorder.idxOf a < aeg.po.reversePostorder.idxOf b)

def xsaccessOrderLess (a b : NodeRef) : BoolExpr ComValuation :=
  if a = b then boolVal false
  else if a = aeg.entry ∧ b = aeg.entry then boolVal false
  else if a = aeg.entry ∧ b ∈ aeg.exits then boolVal true
  else if a ∈ aeg.exits ∧ b = aeg.entry then boolVal false
  else if a ∈ aeg.exits ∧ b ∈ aeg.exits then boolVal (decide (a < b))
  else if a = aeg.entry then boolVal true
  else if b = aeg.entry then boolVal false
  else if a ∈ aeg.exits then boolVal false
  else if b ∈ aeg.exits then boolVal true
  else if a < b then le (xsaccessOrder a) (xsaccessOrder b)
  else lt (xsaccessOrder a) (xsaccessOrder b)

def existsSrc (edge : EdgeKind) (src : NodeRef) : BoolExpr ComValuation :=
  match edge with
  | .rf | .co => and (arch aeg src) (write aeg src)
  | .fr => and (arch aeg src) (read aeg src)
  | .rfx | .cox => and (exec aeg src) (xswrite aeg src)
  | .frx => and (exec aeg src) (xsread aeg src)

def existsDst (edge : EdgeKind) (dst : NodeRef) : BoolExpr ComValuation :=
  match edge with
  | .rf => and (arch aeg dst) (read aeg dst)
  | .co | .fr => and (arch aeg dst) (write aeg dst)
  | .rfx => and (exec aeg dst) (xsread aeg dst)
  | .cox | .frx => and (exec aeg dst) (xswrite aeg dst)

def comExistsPrecond (src dst : NodeRef) (srcKind dstKind : Access) : BoolExpr ComValuation :=
  if !mayAccess aeg srcKind src || !mayAccess aeg dstKind dst then boolVal false
  else if !accessOrderLess aeg src dst then boolVal false
  else and (and (arch aeg src) (arch aeg dst)) (sameAddr aeg src dst)

/-- The memory that the nodes before `dst` leave: a cell is true when `src` wrote it. -/
def writtenBy (src dst : NodeRef) : Term ComValuation (Int → Bool) :=
  storeAll memoryAddress (fun ref _ => src == ref) (fun ref => and (arch aeg ref) (write aeg ref))
    (constArray (fun _ => src == aeg.entry))
    ((aeg.po.reversePostorder.takeWhile (· != dst)).filter
      (fun ref => mayWrite aeg ref && (kind aeg ref).isMemory))

def rfExists (src dst : NodeRef) : BoolExpr ComValuation :=
  let precond := comExistsPrecond aeg src dst .write .read
  if precond.isFalse then boolVal false
  else if aeg.isSpecial src && aeg.isSpecial dst then
    and (and (boolVal (decide (kind aeg src = .entry) && decide (kind aeg dst = .exit)))
      (arch aeg src)) (arch aeg dst)
  else
    let addr := if src = aeg.entry then memoryAddress dst else memoryAddress src
    and precond (ofTerm (select (writtenBy aeg src dst) addr))

def coExists (src dst : NodeRef) : BoolExpr ComValuation :=
  comExistsPrecond aeg src dst .write .write

def frExists (src dst : NodeRef) : BoolExpr ComValuation :=
  comExistsPrecond aeg src dst .read .write

/-- Only literals are tested here, which simplification leaves as they are. -/
def comxExistsPrecond (src dst : NodeRef) (srcAccess dstAccess : BoolExpr ComValuation) :
    BoolExpr ComValuation :=
  if srcAccess.isFalse || dstAccess.isFalse then boolVal false
  else and (and (and (and srcAccess dstAccess) (exec aeg src)) (exec aeg dst))
    (sameXstate aeg src dst)

/-- Whether a node writes the state of both ends between them. -/
def intervenes (src dst ref : NodeRef) : BoolExpr ComValuation :=
  and (and (and (and (and (exec aeg ref) (xswrite aeg ref)) (sameXstate aeg ref src))
    (sameXstate aeg ref dst)) (xsaccessOrderLess aeg src ref)) (xsaccessOrderLess aeg ref dst)

def intervening (src dst : NodeRef) : BoolExpr ComValuation :=
  (aeg.nodeRange.filter (fun ref => !(xswrite aeg ref).isFalse)).foldl
    (fun acc ref => or acc (intervenes aeg src dst ref)) (boolVal false)

def rfxExists (src dst : NodeRef) : BoolExpr ComValuation :=
  if kind aeg src = .entry ∧ kind aeg dst = .exit then and (exec aeg src) (exec aeg dst)
  else
    let precond := comxExistsPrecond aeg src dst (xswrite aeg src) (xsread aeg dst)
    if precond.isFalse then boolVal false
    else and (and precond (xsaccessOrderLess aeg src dst)) (not (intervening aeg src dst))

def coxExists (src dst : NodeRef) : BoolExpr ComValuation :=
  let precond := comxExistsPrecond aeg src dst (xswrite aeg src) (xswrite aeg dst)
  if precond.isFalse then boolVal false else and precond (xsaccessOrderLess aeg src dst)

def frxExists (src dst : NodeRef) : BoolExpr ComValuation :=
  let precond := comxExistsPrecond aeg src dst (xsread aeg src) (xswrite aeg dst)
  if precond.isFalse then boolVal false else and precond (xsaccessOrderLess aeg src dst)

def edgeExists (edge : EdgeKind) (src dst : NodeRef) : BoolExpr ComValuation :=
  match edge with
  | .co => coExists aeg src dst
  | .rf => rfExists aeg src dst
  | .fr => frExists aeg src dst
  | .cox => coxExists aeg src dst
  | .rfx => rfxExists aeg src dst
  | .frx => frxExists aeg src dst

def edgeRel (edge : EdgeKind) (v : ComValuation) : List (NodeRef × NodeRef) :=
  (aeg.nodeRange.filter (fun src => (existsSrc aeg edge src).eval v)).flatMap (fun src =>
    ((aeg.nodeRange.filter (fun dst => (existsDst aeg edge dst).eval v)).filter
      (fun dst => (edgeExists aeg edge src dst).eval v)).map (src, ·))

end Com

end Clou
