import Marginalia.Document.Markdown
import Marginalia.Proofs.Containment
import Marginalia.Proofs.Walk

/-!
# Routes

A route leads from a node of a tree up to its root. The walk, which is drained from a list of visits
that are due, and the sections of a document, which are collected by a recursion that stops at nodes
without an anchor, are two readings of the same routes. That the recursion misses nothing rests on
how outlines are assembled: below a node without an anchor there is nothing.
-/

namespace Marginalia

open Markdown (Section)

namespace Node

/-- A node of a tree with the nodes above it, nearest first. -/
structure Route where
  node : Node
  outer : List Node

/-- The nodes of a route, from its node up to the root. -/
def Route.nodes (r : Route) : List Node := r.node :: r.outer

/-- What a walk knows of a route: its node, the parent, and the distance from the root. -/
def Route.visit (r : Route) : Visit := ⟨r.node, r.outer.head?, r.outer.length⟩

/-- A route goes from a child to its parent at each step, and ends at the root. -/
structure Route.LeadsTo (root : Node) (r : Route) : Prop where
  steps : r.nodes.IsChain fun c p ↦ c ∈ p.children
  ends : r.nodes.getLast? = some root

mutual

/-- The routes from a node and from the nodes below it, parents first. -/
def routesUnder (outer : List Node) : Node → List Route
  | ⟨anchor, tags, children, span⟩ =>
    ⟨⟨anchor, tags, children, span⟩, outer⟩ ::
      routesUnderAll (⟨anchor, tags, children, span⟩ :: outer) children

/-- The routes from several nodes and from the nodes below them. -/
def routesUnderAll (outer : List Node) : List Node → List Route
  | [] => []
  | n :: ns => routesUnder outer n ++ routesUnderAll outer ns

end

/-- The routes of a tree in preorder. -/
def routes (n : Node) : List Route := routesUnder [] n

theorem routesUnderAll_eq_flatMap (outer ns : List Node) :
    routesUnderAll outer ns = ns.flatMap (routesUnder outer) := by
  induction ns with
  | nil => rw [routesUnderAll, List.flatMap_nil]
  | cons n ns ih => rw [routesUnderAll, ih, List.flatMap_cons]

theorem routesUnder_eq (outer : List Node) (n : Node) :
    routesUnder outer n = ⟨n, outer⟩ :: n.children.flatMap (routesUnder (n :: outer)) := by
  cases n
  rw [routesUnder, routesUnderAll_eq_flatMap]

/-! ## Walks -/

/-- A traversal that hands down the parent and the depth reads them off the routes. -/
theorem visits_eq_map_routesUnder (outer : List Node) (n : Node) :
    visits outer.head? outer.length n = (routesUnder outer n).map Route.visit := by
  induction n using induction generalizing outer with
  | h n ih =>
    rw [visits_eq, visitsAll_eq_flatMap, routesUnder_eq, List.map_cons, List.map_flatMap]
    exact congrArg _ (List.flatMap_congr fun c hc ↦ ih c hc (n :: outer))

/-- A walk visits the nodes of a tree in preorder, each with the parent and the depth of its route. -/
theorem walk_eq_map_routes (n : Node) : n.walk = n.routes.map Route.visit := by
  rw [walk_eq_visits]
  exact visits_eq_map_routesUnder [] n

/-- A route to a node goes on to the root of the tree in which the node stands. -/
theorem leadsTo_of_mem_routesUnder {root n : Node} {outer : List Node}
    (h : Route.LeadsTo root ⟨n, outer⟩) : ∀ r ∈ routesUnder outer n, r.LeadsTo root := by
  induction n using induction generalizing outer with
  | h n ih =>
    intro r hr
    rw [routesUnder_eq, List.mem_cons, List.mem_flatMap] at hr
    rcases hr with rfl | ⟨c, hc, hr⟩
    · exact h
    · refine ih c hc ⟨?_, ?_⟩ r hr
      · exact List.isChain_cons_cons.mpr ⟨hc, h.steps⟩
      · exact List.getLast?_cons_cons.trans h.ends

/-- Where there is a route from a node, there is one from each of its children. -/
theorem mem_routesUnder_child {n c : Node} {outer : List Node} {r : Route}
    (hr : r ∈ routesUnder outer n) (hc : c ∈ r.node.children) :
    ⟨c, r.nodes⟩ ∈ routesUnder outer n := by
  induction n using induction generalizing outer with
  | h n ih =>
    rw [routesUnder_eq, List.mem_cons, List.mem_flatMap] at hr
    rw [routesUnder_eq]
    refine List.mem_cons_of_mem _ (List.mem_flatMap.mpr ?_)
    rcases hr with rfl | ⟨d, hd, hr⟩
    · exact ⟨c, hc, by rw [routesUnder_eq]; exact List.mem_cons_self⟩
    · exact ⟨d, hd, ih d hd hr⟩

/-- The routes of a tree are all the ways from child to parent that end at its root. -/
theorem mem_routes_iff {n : Node} {r : Route} : r ∈ n.routes ↔ r.LeadsTo n := by
  refine ⟨leadsTo_of_mem_routesUnder ⟨List.isChain_singleton _, rfl⟩ r, ?_⟩
  obtain ⟨c, outer⟩ := r
  induction outer generalizing c with
  | nil =>
    rintro ⟨-, hends⟩
    cases hends
    rw [routes, routesUnder_eq]
    exact List.mem_cons_self
  | cons p outer ih =>
    rintro ⟨hsteps, hends⟩
    obtain ⟨hchild, hsteps⟩ := List.isChain_cons_cons.mp hsteps
    exact mem_routesUnder_child (ih p ⟨hsteps, List.getLast?_cons_cons.symm.trans hends⟩) hchild

/-! ## Titles -/

/-- The names along a route, from the root down; a node without an anchor has none, and an
anonymous one is called so. -/
def Route.names (r : Route) : List String :=
  (r.nodes.filterMap (·.anchor)).reverse.map fun a ↦
    if a.name.isEmpty then "(anonymous)" else a.name

theorem Route.names_cons (c n : Node) (outer : List Node) :
    Route.names ⟨c, n :: outer⟩ = Route.names ⟨n, outer⟩ ++
      (c.anchor.map fun a ↦ if a.name.isEmpty then "(anonymous)" else a.name).toList := by
  cases hc : c.anchor <;> simp [names, nodes, hc]

/-- The names along a route joined by dots; nothing if no node of it has an anchor. -/
def Route.title? (r : Route) : Option String :=
  if r.names = [] then none else some (".".intercalate r.names)

/-- A title extends the title of what is around it. -/
theorem Route.title_cons {c n : Node} {outer : List Node} {a : Anchor} (h : c.anchor = some a) :
    Markdown.title (Route.title? ⟨n, outer⟩) a = ".".intercalate (Route.names ⟨c, n :: outer⟩) := by
  rw [names_cons, h, Option.map_some, Option.toList_some, title?]
  split
  · next hnames =>
    rw [hnames]
    rfl
  · next hnames =>
    rw [String.intercalate_append_of_ne_nil hnames (List.cons_ne_nil _ _)]
    rfl

end Node

/-! ## Sections -/

/-- A section is that of the anchored node of a route. -/
structure Markdown.Section.Heads (s : Section) (r : Node.Route) : Prop where
  node : s.node = r.node
  anchor : r.node.anchor = some s.anchor
  /-- The root has no section, so a section is one level higher than the visit. -/
  depth : s.depth + 1 = r.visit.depth
  /-- The title joins the names of the anchors from the outermost one to the section's own. -/
  title : s.title = ".".intercalate r.names

namespace Markdown

open Node (Route routesUnder)

theorem sectionsBelow_eq (outer : Option String) (depth : Nat) (n : Node) :
    sectionsBelow outer depth n = sectionsOf outer depth n.children := by
  cases n
  rw [sectionsBelow]

/-- The sections below a node are those of the anchored nodes below it, if nothing is below nodes
without an anchor. -/
theorem forall₂_sectionsBelow (n : Node) (outer : List Node)
    (h : ∀ c ∈ n.children, ∀ m ∈ c.nodes, m.anchor = none → m.children = []) :
    List.Forall₂ Section.Heads
      (sectionsBelow (Route.title? ⟨n, outer⟩) outer.length n)
      ((n.children.flatMap (routesUnder (n :: outer))).filter (·.node.anchor.isSome)) := by
  induction n using Node.induction generalizing outer with
  | h n ih =>
    rw [sectionsBelow_eq]
    have hchildren : ∀ cs : List Node, (∀ c ∈ cs, c ∈ n.children) → List.Forall₂ Section.Heads
        (sectionsOf (Route.title? ⟨n, outer⟩) outer.length cs)
        ((cs.flatMap (routesUnder (n :: outer))).filter (·.node.anchor.isSome)) := by
      intro cs hcs
      induction cs with
      | nil => rw [sectionsOf]; exact .nil
      | cons c cs ihcs =>
        have hc : c ∈ n.children := hcs c List.mem_cons_self
        have hrest := ihcs fun d hd ↦ hcs d (List.mem_cons_of_mem _ hd)
        rw [sectionsOf, List.flatMap_cons, List.filter_append, Node.routesUnder_eq,
          List.filter_cons]
        cases ha : c.anchor with
        | none =>
          rw [h c hc c c.mem_nodes_self ha]
          exact hrest
        | some a =>
          have hbelow := ih c hc (n :: outer) fun d hd m hm ↦
            h c hc m (Node.mem_nodes_of_mem_children hd hm)
          have htitle : Route.title? ⟨c, n :: outer⟩ =
              some (title (Route.title? ⟨n, outer⟩) a) := by
            rw [Route.title_cons ha, Route.title?, if_neg]
            rw [Route.names_cons, ha]
            exact List.append_ne_nil_of_right_ne_nil _ (List.cons_ne_nil _ _)
          rw [htitle] at hbelow
          exact .cons ⟨rfl, ha, rfl, Route.title_cons ha⟩ (List.rel_append hbelow hrest)
    exact hchildren n.children fun c hc ↦ hc

/-- The sections of a tree without an anchor at its root. -/
theorem forall₂_sections {root : Node} (hroot : root.anchor = none)
    (h : ∀ m ∈ root.children.flatMap Node.nodes, m.anchor = none → m.children = []) :
    List.Forall₂ Section.Heads (sections root)
      (root.routes.filter (·.node.anchor.isSome)) := by
  have htitle : Route.title? ⟨root, []⟩ = none := by
    simp [Route.title?, Route.names, Route.nodes, hroot]
  have hbelow := forall₂_sectionsBelow root [] fun c hc m hm ↦
    h m (List.mem_flatMap.mpr ⟨c, hc, hm⟩)
  rw [htitle] at hbelow
  rw [Node.routes, Node.routesUnder_eq, List.filter_cons, hroot]
  exact hbelow

end Markdown

/-- A walk over any tree goes along its routes in preorder, and the routes are the ways from child
to parent up to the root. The sections of a document are those of the anchored nodes of the walk
over the outline, in its order, each one level higher and titled by the names along its route. -/
theorem walk_and_sections_follow_routes :
    (∀ n : Node, n.walk = n.routes.map Node.Route.visit ∧ ∀ r, r ∈ n.routes ↔ r.LeadsTo n) ∧
      ∀ (s : Setup) (source : List Char),
        List.Forall₂ Section.Heads (Markdown.sections (s.scan source).outline.root)
          ((s.scan source).outline.root.routes.filter (·.node.anchor.isSome)) := by
  refine ⟨fun n ↦ ⟨n.walk_eq_map_routes, fun _ ↦ Node.mem_routes_iff⟩, ?_⟩
  intro s source
  obtain ⟨hanchor, hnested⟩ := s.nested_scan source
  refine Markdown.forall₂_sections hanchor fun m hm hnone ↦ ?_
  obtain ⟨c, hc, hm⟩ := List.mem_flatMap.mp hm
  exact ((hnested c hc m hm).floating hnone).1

end Marginalia
