import FairCross.Engine.Auction
import FairCross.Library.CallMarket

/-!
# The market of a batch

What the auction is about, in exact numbers: the demand and the supply of a list of orders at every
price, the largest volume any price executes, and the sides' totals. Nothing here is computed by the
source; the sweep is compared with it.
-/

namespace FairCross

/-- The quantity of an order as a number. -/
def Order.lots (o : Order) : ℕ := o.qty.raw

/-- The quantity of a list of orders. -/
def totalLots (orders : List Order) : ℕ := (orders.map Order.lots).sum

/-- The orders of one side. -/
def sideOrders (side : Side) (orders : List Order) : List Order := orders.filter (·.side = side)

theorem mem_sideOrders {side : Side} {orders : List Order} {o : Order} :
    o ∈ sideOrders side orders ↔ o ∈ orders ∧ o.side = side := by
  simp [sideOrders]

/-- `D(p)`: the exact quantity of the buys with limit at least `p`. -/
def demandAt (orders : List Order) (p : Price) : ℕ :=
  totalLots (orders.filter fun o => o.side = .buy ∧ p ≤ o.price)

/-- `S(p)`: the exact quantity of the sells with limit at most `p`. -/
def supplyAt (orders : List Order) (p : Price) : ℕ :=
  totalLots (orders.filter fun o => o.side = .sell ∧ o.price ≤ p)

/-- The volume price `p` executes. -/
def executableAt (orders : List Order) (p : Price) : ℕ := min (demandAt orders p) (supplyAt orders p)

/-- The call market of the orders. -/
def market (orders : List Order) : CallMarket Price :=
  .ofInterests Order.price Order.lots (sideOrders .buy orders) (sideOrders .sell orders)

theorem market_demand (orders : List Order) (p : Price) :
    (market orders).demand p = demandAt orders p := by
  simp only [market, CallMarket.ofInterests, CallMarket.above, demandAt, totalLots, sideOrders,
    List.filter_filter]
  congr 2
  apply List.filter_congr
  intro o _
  simp [Bool.and_comm]

theorem market_supply (orders : List Order) (p : Price) :
    (market orders).supply p = supplyAt orders p := by
  simp only [market, CallMarket.ofInterests, CallMarket.below, supplyAt, totalLots, sideOrders,
    List.filter_filter]
  congr 2
  apply List.filter_congr
  intro o _
  simp [Bool.and_comm]

theorem market_executable (orders : List Order) (p : Price) :
    (market orders).executable p = executableAt orders p := by
  rw [CallMarket.executable, market_demand, market_supply, executableAt]

theorem demandAt_le (orders : List Order) (p : Price) :
    demandAt orders p ≤ totalLots (sideOrders .buy orders) :=
  CallMarket.sum_filter_le_of_imp Order.lots (fun _ h => h.1) orders

theorem supplyAt_le (orders : List Order) (p : Price) :
    supplyAt orders p ≤ totalLots (sideOrders .sell orders) :=
  CallMarket.sum_filter_le_of_imp Order.lots (fun _ h => h.1) orders

end FairCross
