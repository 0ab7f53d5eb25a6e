import CgrJni.ProjectedArrival

/-!
The room that an accepted route has for the bundle, and what is made of a shortage: the
overbooked volume, and the bundles that are taken back from the queue for it.
-/

namespace Overbooking

open IonDb Libcgr Forward Scalar Projection ProjectedArrival

/-- From the last bundle on: those that are protected stay, the others go until there is room. -/
def rebook (overbooked protect : Int) : List Bundle → List Bundle
  | [] => []
  | bundle :: rest =>
    if 0 < overbooked then
      if 0 < protect then rebook overbooked (protect - computeECCC (guessBundleSize bundle)) rest
      else bundle :: rebook (overbooked - computeECCC (guessBundleSize bundle)) protect rest
    else []

section

variable {δ : Type}

/-- The bundles that are removed and forwarded again, of those queued for the neighbor in the
order in which `nextBundle` comes to them. -/
def manageOverbooking (neighbor : ProximateNode δ) (priority : Nat) (directive : Option δ)
    (queued : List Bundle) : List Bundle :=
  if priority = 0 then []
  else if intValue neighbor.overbooked = 0 then []
  else
    match directive with
    | none => []
    | some _ => rebook (intValue neighbor.overbooked) (intValue neighbor.protect) queued

end

variable {s : IonState} {route : CgrRoute} {now : Int} {c : IonCXref} {rest : List IonCXref} {outduct : Outduct}
  {bundle : Bundle}

end Overbooking
