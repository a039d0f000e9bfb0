import NMiner.Lib.Transition
import NMiner.Spec.Share

/-! One miner and the proxy with a FIFO channel in each direction: targets travel down,
shares travel up. The proxy judges a share as `LocalBackend.submit` does, by `floor`
and a conditional `settle`. -/

namespace NMiner

structure Wire where
  vardiff : VarDiff
  /-- Targets sent and not yet received, oldest first. -/
  down : List String := []
  /-- The last target the miner has received. -/
  held : Option String := none
  /-- Values of the shares submitted and not yet judged, oldest first. -/
  up : List ℕ := []
  /-- Values of the shares the proxy has refused. -/
  refused : List ℕ := []

namespace Wire

inductive Action
  | observe (hashrate : ℚ)
  | retune (pool : String)
  | deliver
  | submit (value : ℕ)
  | judge (now : ℕ)

/-- The miner only submits shares that meet the last target it has received. -/
def step (w : Wire) : Action → Option Wire
  | .observe hashrate => some { w with vardiff := w.vardiff.observe hashrate }
  | .retune pool => (w.vardiff.tune pool).map fun v =>
      { w with vardiff := v, down := w.down ++ [v.target] }
  | .deliver => match w.down with
    | [] => none
    | t :: rest => some { w with held := some t, down := rest }
  | .submit value => match w.held with
    | none => none
    | some t => if meetsValue (some value) t = some true then some { w with up := w.up ++ [value] }
        else none
  | .judge now => match w.up with
    | [] => none
    | value :: rest => (w.vardiff.judge (some value)).map fun
      | (none, v) => { w with vardiff := v, up := rest, refused := w.refused ++ [value] }
      | (some d, v) => { w with vardiff := v.submitted d 1 now, up := rest }

def start (seed : ℚ) (now : ℕ) : Wire := { vardiff := VarDiff.new seed now }

end Wire

end NMiner
