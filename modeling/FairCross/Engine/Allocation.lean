import FairCross.Engine.Auction

/-!
# Allocation

`engine/partition.hpp`, `engine/allocation.hpp` and `engine/allocation.cpp`. One side is allocated
in three steps: the orders are split by moneyness, the in-the-money orders are filled first, and the
at-the-money orders share what is left by largest remainders.
-/

namespace FairCross

inductive OrderMoneyness where
  | inTheMoney
  | atTheMoney
  | outOfTheMoney
deriving DecidableEq

/-- Everything that is not a buy is classified as a sell. -/
def classifyOrder (order : Order) (clearingPrice : Price) : OrderMoneyness :=
  if order.side = .buy then
    if order.price.raw > clearingPrice.raw then .inTheMoney
    else if order.price.raw = clearingPrice.raw then .atTheMoney
    else .outOfTheMoney
  else
    if order.price.raw < clearingPrice.raw then .inTheMoney
    else if order.price.raw = clearingPrice.raw then .atTheMoney
    else .outOfTheMoney

/-- The quantity one order receives, with the order's own fields. -/
structure OrderAllocation where
  orderId : OrderId
  account : AccountId
  side : Side
  limitPrice : Price
  originalQty : Qty
  allocatedQty : Qty
  seq : U64
deriving DecidableEq

/-- The allocation of `qty` to `o`. -/
def OrderAllocation.of (o : Order) (qty : Qty) : OrderAllocation :=
  { orderId := o.id, account := o.account, side := o.side, limitPrice := o.price,
    originalQty := o.qty, allocatedQty := qty, seq := o.seq }

structure BatchAllocation where
  clearingPrice : Option Price
  targetVolume : Qty
  totalBuyAllocated : Qty
  totalSellAllocated : Qty
  allocations : List OrderAllocation
deriving DecidableEq

/-- `std::map<uint64_t, uint64_t>` from order ids to fills. -/
abbrev FillMap := SortedMap U64 U64

/-! ## One side -/

/-- The orders of one side by moneyness, in batch order, with the totals of the first two groups. -/
structure SidePartition where
  itmOrders : List Order
  atmOrders : List Order
  otmOrders : List Order
  qItm : Qty
  qAtm : Qty

def partitionStep (clearingPrice : Price) (targetSide : Side) (p : SidePartition) (order : Order) :
    Result SidePartition :=
  if order.side ≠ targetSide then .ok p
  else
    match classifyOrder order clearingPrice with
    | .inTheMoney => do
      let qItm ← (p.qItm.checkedAdd order.qty).convert
      pure { p with qItm, itmOrders := p.itmOrders ++ [order] }
    | .atTheMoney => do
      let qAtm ← (p.qAtm.checkedAdd order.qty).convert
      pure { p with qAtm, atmOrders := p.atmOrders ++ [order] }
    | .outOfTheMoney => .ok { p with otmOrders := p.otmOrders ++ [order] }

def partitionSide (orders : List Order) (clearingPrice : Price) (targetSide : Side) :
    Result SidePartition :=
  orders.foldlM (partitionStep clearingPrice targetSide) ⟨[], [], [], .zero, .zero⟩

/-- The priority of in-the-money orders: the better price first, then the lower sequence number. -/
def itmLess (targetSide : Side) (a b : Order) : Bool :=
  if targetSide = .buy then
    if a.price ≠ b.price then a.price > b.price else a.seq < b.seq
  else
    if a.price ≠ b.price then a.price < b.price else a.seq < b.seq

/-- Fill one order from what is left of the target. -/
def greedyStep (s : FillMap × U64) (o : Order) : FillMap × U64 :=
  let fill := min o.qty.raw s.2
  (s.1.insert o.id.raw fill, s.2 - fill)

/-- Fill every order completely. -/
def fillAll (orders : List Order) : FillMap :=
  orders.foldl (fun m o => m.insert o.id.raw o.qty.raw) .empty

/-- The in-the-money fills, and the volume that is left for the at-the-money orders. -/
def fillInTheMoney [StdSort] (p : SidePartition) (targetVolume : Qty) (targetSide : Side) :
    FillMap × U64 :=
  if targetVolume.raw ≤ p.qItm.raw then
    let sortedItm := StdSort.sort (itmLess targetSide) p.itmOrders
    ((sortedItm.foldl greedyStep (.empty, targetVolume.raw)).1, 0)
  else (fillAll p.itmOrders, targetVolume.raw - p.qItm.raw)

/-- An at-the-money order with the floor and the remainder of its proportional share. -/
structure AtTheMoneyCandidate where
  order : Order
  baseFill : U64
  remainder : U64
deriving DecidableEq

/-- The share of `o` in `vRem` out of `totalAtm`; the product is taken in 128 bits. -/
def proRataCandidate (vRem : U64) (totalAtm : Qty) (o : Order) : AtTheMoneyCandidate :=
  let num : ℕ := (o.qty.raw : ℕ) * vRem
  { order := o
    baseFill := toU64 (num / totalAtm.raw)
    remainder := toU64 (num % totalAtm.raw) }

/-- Largest remainder first, then the lower sequence number, then the lower id. -/
def remainderLess (a b : AtTheMoneyCandidate) : Bool :=
  if a.remainder ≠ b.remainder then a.remainder > b.remainder
  else if a.order.seq ≠ b.order.seq then a.order.seq < b.order.seq
  else a.order.id.raw < b.order.id.raw

/-- Give one candidate its floor, and one surplus lot while there are any. -/
def surplusStep (s : FillMap × U64) (c : AtTheMoneyCandidate) : FillMap × U64 :=
  let extra : U64 := if s.2 > 0 then 1 else 0
  let totalFill := min (c.baseFill + extra) c.order.qty.raw
  (s.1.insert c.order.id.raw totalFill, s.2 - extra)

def fillAtTheMoney [StdSort] (p : SidePartition) (vRem : U64) : FillMap :=
  if vRem > 0 ∧ p.atmOrders ≠ [] then
    if vRem ≥ p.qAtm.raw then fillAll p.atmOrders
    else
      let candidates := p.atmOrders.map (proRataCandidate vRem p.qAtm)
      let baseSum := candidates.foldl (fun sum c => sum + c.baseFill) 0
      let surplus := vRem - baseSum
      ((StdSort.sort remainderLess candidates).foldl surplusStep (.empty, surplus)).1
  else .empty

/-- The fill of `order` looked up in the map of its group. -/
def lookupFill (itmFillMap atmFillMap : FillMap) (clearingPrice : Price) (order : Order) : U64 :=
  match classifyOrder order clearingPrice with
  | .inTheMoney => (itmFillMap.find order.id.raw).getD 0
  | .atTheMoney => (atmFillMap.find order.id.raw).getD 0
  | .outOfTheMoney => 0

def allocateSide [StdSort] (orders : List Order) (clearingPrice : Price) (targetVolume : Qty)
    (targetSide : Side) : Result (List OrderAllocation) :=
  if targetVolume.isZero then
    .ok ((orders.filter (·.side = targetSide)).map fun o => .of o .zero)
  else do
    let p ← partitionSide orders clearingPrice targetSide
    let (itmFillMap, vRem) := fillInTheMoney p targetVolume targetSide
    let atmFillMap := fillAtTheMoney p vRem
    pure ((orders.filter (·.side = targetSide)).map fun o =>
      .of o ⟨lookupFill itmFillMap atmFillMap clearingPrice o⟩)

/-! ## The batch -/

/-- `std::map<uint64_t, OrderAllocation>` keyed by order id. -/
abbrev AllocationMap := SortedMap U64 OrderAllocation

def allocationMap (allocs : List OrderAllocation) : AllocationMap :=
  allocs.foldl (fun m a => m.insert a.orderId.raw a) .empty

/-- The sum of the allocated quantities, unchecked. -/
def allocatedSum (allocs : List OrderAllocation) : U64 :=
  allocs.foldl (fun sum a => sum + a.allocatedQty.raw) 0

/-- The state of the loop that merges the two sides back into batch order. -/
structure MergeState where
  allocations : List OrderAllocation
  buyMap : AllocationMap
  sellMap : AllocationMap

def mergeStep (s : MergeState) (order : Order) : MergeState :=
  match s.buyMap.find order.id.raw with
  | some a => { s with allocations := s.allocations ++ [a], buyMap := s.buyMap.erase order.id.raw }
  | none =>
    match s.sellMap.find order.id.raw with
    | some a =>
      { s with allocations := s.allocations ++ [a], sellMap := s.sellMap.erase order.id.raw }
    | none => s

/-- The allocation in which nothing trades. -/
def zeroAllocation (batch : Batch) : BatchAllocation :=
  { clearingPrice := none, targetVolume := .zero, totalBuyAllocated := .zero,
    totalSellAllocated := .zero, allocations := batch.orders.map fun o => .of o .zero }

/-- The allocation at clearing price `cp`. -/
def allocateAt [StdSort] (batch : Batch) (cp : Price) (targetVolume : Qty) :
    Result BatchAllocation := do
  let buyAllocs ← (allocateSide batch.orders cp targetVolume .buy).convert
  let sellAllocs ← (allocateSide batch.orders cp targetVolume .sell).convert
  let merged := batch.orders.foldl mergeStep
    ⟨[], allocationMap buyAllocs, allocationMap sellAllocs⟩
  pure { clearingPrice := some cp, targetVolume, totalBuyAllocated := ⟨allocatedSum buyAllocs⟩,
         totalSellAllocated := ⟨allocatedSum sellAllocs⟩, allocations := merged.allocations }

def allocateBatch [StdSort] (batch : Batch) (clearingPrice : Option Price) (targetVolume : Qty) :
    Result BatchAllocation :=
  match clearingPrice with
  | none => .ok (zeroAllocation batch)
  | some cp => if targetVolume.isZero then .ok (zeroAllocation batch)
    else allocateAt batch cp targetVolume

end FairCross
