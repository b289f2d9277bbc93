import WgAndroid.Manager.TunnelComparator
import WgAndroid.Manager.TunnelManager

/-!
# The live tunnel list

What the user interface holds is the manager's own list, which changes under it: the manager's calls
insert and remove tunnels, and a change of the favourites changes the comparator and sorts the list
anew.
-/

namespace WgAndroid.TunnelManager

open Interleaving

/-- The manager with its suspended calls, and `TunnelComparator.favourites`. -/
structure Live where
  favourites : List JString
  machine : Machine World Coroutine

namespace Live

def world (l : Live) : World := l.machine.shared

/-- The list that `getTunnels` returns. -/
def tunnels (l : Live) : List ObservableTunnel := l.world.tunnelMap

def withWorld (l : Live) (w : World) : Live := { l with machine := { l.machine with shared := w } }

end Live

/-- `resort`: the list is emptied, and its elements are added one after the other. -/
def resort (cmp : Comparator JString) (w : World) : World :=
  if w.tunnelMap.isEmpty then w
  else { w with tunnelMap := (SortedKeyedList.addAll cmp w.name false [] w.tunnelMap).2 }

/-- What can happen to the list: a step of a call, or a new set of favourites. -/
inductive Change where
  | manager (e : Event Call Outcome)
  | favourites (names : List JString)

/-- What `observeFavourites` does with a new set. -/
def collectFavourites (l : Live) (names : List JString) : Live :=
  -- the favourites are sets: the order of the names does not count
  if l.favourites ⊆ names ∧ names ⊆ l.favourites then l
  else
    { l.withWorld (resort (TunnelComparator.comparator names) l.world) with favourites := names }

def Live.step (l : Live) : Change → Option Live
  | .manager e =>
    (Interleaving.step (system (TunnelComparator.comparator l.favourites)) l.machine e).map fun m =>
      { l with machine := m }
  | .favourites names => some (collectFavourites l names)

end WgAndroid.TunnelManager
