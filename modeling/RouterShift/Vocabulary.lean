import RouterShift.Text.Cut

/-! The fixed vocabulary of UI-Router in templates and sources, and the names of what replaces it. -/

namespace RouterShift.Vocabulary

/-- Links to a state. -/
def sref : String := "uiSref"
/-- Parameters of the linked state. -/
def params : String := "uiParams"
/-- Class set while exactly the linked state is active. -/
def srefActiveEq : String := "uiSrefActiveEq"
/-- Class set while the linked state or one below it is active. -/
def srefActive : String := "uiSrefActive"
/-- An outlet, named or not, as an attribute or as an element. -/
def view : String := "ui-view"

/-- The attributes that are migrated. -/
def attributes : List String := [sref, params, srefActiveEq, srefActive, view]

/-- The elements that are renamed to the outlet. -/
def outletTags : List String := ["ui-router", view]

/-- The element that shows the active route. -/
def routerOutlet : String := "router-outlet"

/-- A source that contains this talks to UI-Router. -/
def routerMarker : String := "@uirouter"
/-- A source that contains this may declare a component. -/
def componentMarker : String := "@Component"

/-- The decorator whose argument holds the template. -/
def componentDecorator : String := "Component"

/-- The life cycle hook that needs the active route. -/
def paramsHook : String := "uiOnParamsChanged"
/-- Where the type of the active route is imported from. -/
def routerModule : String := "@angular/router"
def routeType : String := "ActivatedRoute"
def routeParam : String := "activatedRoute"

/-- The dependency without which there is nothing to migrate. -/
def routerPackage : String := "@uirouter/angular"

/-- The text contains an attribute or an element name of the vocabulary. -/
def isMentionedIn (text : String) : Bool :=
  (attributes ++ outletTags).any fun word => Text.mentions word.toList text.toList

end RouterShift.Vocabulary
