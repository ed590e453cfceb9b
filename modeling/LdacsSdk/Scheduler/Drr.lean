import LdacsSdk.Core.RingBuffer
import LdacsSdk.Library.Loops

/-!
# The deficit round robin scheduler

Users are the entries of `req_entitys`; the active list holds pointers to them, modelled as
their indices. All counters are 64-bit and wrap. Besides its counters an allocation carries the
flag `borrow`, which the code does not have: it is raised by a subtraction that underflows and
stays raised.
-/
namespace LdacsSdk

open Library

/-- `drr_req_t`. -/
structure DrrReq where
  sac : ℕ
  dc : ℕ := 0
  reqSz : ℕ := 0
  deriving DecidableEq, Repr

/-- `ld_drr_t`. -/
structure Drr where
  activeList : RBuffer ℕ
  maxSz : ℕ
  reqSzs : ℕ → ℕ
  reqEntitys : ℕ → DrrReq

/-- `init_ld_drr`; a SAC is stored in 16 bits. -/
def initLdDrr (sz : ℕ) : Drr where
  activeList := rbufferInit sz
  maxSz := sz
  reqSzs := fun _ => 0
  reqEntitys := fun i => { sac := i % 2 ^ 16 }

/-- The request of user `i`. -/
def Drr.req (drr : Drr) (i : ℕ) : ℕ := (drr.reqEntitys i).reqSz

/-- `ld_req_update`. -/
def ldReqUpdate (drr : Drr) (sac reqSz : ℕ) : Drr :=
  { drr with
    reqEntitys := Function.update drr.reqEntitys sac
      { drr.reqEntitys sac with reqSz := u64 (drr.req sac + reqSz) } }

/-- `drr_fac`. -/
def drrFac (reqEntitys : ℕ → DrrReq) (a b : ℕ) : Bool := (reqEntitys a).sac == (reqEntitys b).sac

/-- One round of the loop that enters every user with a request into the active list, with the
total of the requests so far. -/
def drrRegister (s : Drr × ℕ) (i : ℕ) : Drr × ℕ :=
  let drr := s.1
  let reqI := drr.reqEntitys i
  if reqI.reqSz = 0 then s
  else
    let entered :=
      if rbufferCheckExist drr.activeList i (drrFac drr.reqEntitys) then drr
      else
        { drr with
          activeList := (rbufferPushBack drr.activeList i).1
          reqEntitys := Function.update drr.reqEntitys i { reqI with dc := 0 } }
    ({ entered with reqSzs := Function.update drr.reqSzs reqI.sac reqI.reqSz },
      u64 (s.2 + reqI.reqSz))

/-- The counters that the inner loop works on: the user's entry of `alloc_map`, its deficit
counter and request, and the resources left. -/
structure Serving where
  alloc : ℕ
  dc : ℕ
  w : ℕ
  reqSz : ℕ
  fragData : Bool
  borrow : Bool
  deriving DecidableEq, Repr

namespace Serving

/-- Give full packet size data. -/
def givePacket (v : Serving) (pktSize : ℕ) : Serving :=
  { v with
    alloc := u64 (v.alloc + pktSize)
    dc := u64 (v.dc - pktSize)
    w := u64 (v.w - pktSize)
    reqSz := u64 (v.reqSz - pktSize)
    borrow := v.borrow || decide (v.dc < pktSize ∨ v.w < pktSize ∨ v.reqSz < pktSize) }

/-- Give requested data. -/
def giveRequested (v : Serving) : Serving :=
  { v with
    alloc := u64 (v.alloc + v.reqSz)
    dc := u64 (v.dc - v.reqSz)
    w := u64 (v.w - v.reqSz)
    reqSz := 0
    borrow := v.borrow || decide (v.dc < v.reqSz ∨ v.w < v.reqSz) }

/-- Give remaining data. -/
def giveRemaining (v : Serving) : Serving :=
  { v with
    alloc := u64 (v.alloc + v.w)
    reqSz := u64 (v.reqSz - v.w)
    dc := u64 (v.dc - v.w)
    w := 0
    fragData := true
    borrow := v.borrow || decide (v.reqSz < v.w ∨ v.dc < v.w) }

end Serving

/-- One round of the inner loop of `drr_resource_alloc`. -/
def serveRound (pktSize wMin : ℕ) (v : Serving) : Option (Round Serving) :=
  if v.dc > 0 ∧ v.reqSz > 0 then
    if v.w ≥ pktSize ∧ v.dc ≥ pktSize then
      if v.reqSz ≥ pktSize then some (.again (v.givePacket pktSize))
      else some (.again v.giveRequested)
    else if v.w < pktSize ∧ v.w > wMin ∧ v.dc ≥ pktSize then
      if v.reqSz ≥ v.w then some (.again v.giveRemaining)
      else some (.again v.giveRequested)
    else some (.leave v)
  else some (.leave v)

/-- The scheduler in the middle of an allocation. -/
structure Allocation where
  drr : Drr
  allocMap : ℕ → ℕ
  w : ℕ
  borrow : Bool

/-- The user `i` after it was served. -/
def Allocation.served (s : Allocation) (i : ℕ) (rest : RBuffer ℕ) (v : Serving) : Allocation :=
  let reqI := s.drr.reqEntitys i
  let allocMap := Function.update s.allocMap reqI.sac v.alloc
  let done := allocMap reqI.sac = s.drr.reqSzs reqI.sac
  { drr :=
      { s.drr with
        activeList :=
          if done then rest
          else if v.fragData then (rbufferPushFront rest i).1
          else (rbufferPushBack rest i).1
        reqEntitys := Function.update s.drr.reqEntitys i
          { reqI with dc := if done then 0 else v.dc, reqSz := v.reqSz } }
    allocMap := allocMap
    w := v.w
    borrow := v.borrow }

/-- The counters with which the user `i` enters the inner loop. -/
def Allocation.serving (s : Allocation) (pktSize i : ℕ) : Serving :=
  let reqI := s.drr.reqEntitys i
  { alloc := s.allocMap reqI.sac
    dc := u64 (reqI.dc + pktSize)
    w := s.w
    reqSz := reqI.reqSz
    fragData := false
    borrow := s.borrow }

/-- One round of the outer loop. A round of the inner loop that goes on lowers the request, if
packets have a size, so one round more than the request is enough for it; otherwise it is never
left. -/
def drrRound (pktSize wMin : ℕ) (s : Allocation) : Option (Round Allocation) :=
  if s.w > wMin then
    match rbufferPop s.drr.activeList with
    | (_, none) => some (.leave s)
    | (rest, some i) =>
      (whileLoop (serveRound pktSize wMin) (s.drr.req i + 1) (s.serving pktSize i)).map
        fun v => .again (s.served i rest v)
  else some (.leave s)

/-- The users with a request enter the active list. -/
def drrRegisterAll (drr : Drr) : Drr × ℕ := (List.range drr.maxSz).foldl drrRegister (drr, 0)

/-- The state in which `drr_resource_alloc` enters its loop. -/
def drrEnter (drr : Drr) (w : ℕ) : Allocation :=
  let r := drrRegisterAll drr
  { drr := r.1
    allocMap := fun _ => 0
    w := if r.2 < w then r.2 else w
    borrow := false }

/-- `drr_resource_alloc`, with at most `fuel` rounds of its loop: the scheduler and the
allocation map that the callback is given. -/
def drrResourceAlloc (fuel : ℕ) (drr : Drr) (pktSize w wMin : ℕ) : Option Allocation :=
  whileLoop (drrRound pktSize wMin) fuel (drrEnter drr w)

end LdacsSdk
