import OhMyPi.Dom.Stream

/-! Trees whose property values are replaced one by one. Transactions commute with the replacement,
and so do canonical snapshots. -/

namespace OhMyPi

open KeyedList

section

variable (f : Value → Value)

def NodeSpec.mapValues (spec : NodeSpec) : NodeSpec :=
  { spec with props := KeyedList.mapValues f spec.props }

def Node.mapValues (node : Node) : Node := { node with props := KeyedList.mapValues f node.props }

def Op.mapValues : Op → Op
  | .ins parent after node => .ins parent after (node.mapValues f)
  | .rm h => .rm h
  | .set h prop value => .set h prop (f value)
  | .mv h parent after => .mv h parent after

def Dom.mapValues (dom : Dom) : Dom :=
  { dom with nodes := fun h => (dom.nodes h).map (Node.mapValues f) }

def Canonical.mapValues (c : Canonical) : Canonical :=
  { c with nodes := c.nodes.map fun n => { n with node := n.node.mapValues f } }

end

variable {f : Value → Value}

theorem Node.mapValues_setProp (node : Node) (key : PropKey) (value : Value) :
    (node.setProp key value).mapValues f = (node.mapValues f).setProp key (f value) := by
  simp only [Node.mapValues, Node.setProp, mapValues_assign]

theorem Node.mapValues_sortProps (node : Node) :
    node.sortProps.mapValues f = (node.mapValues f).sortProps := by
  simp only [Node.mapValues, Node.sortProps, mapValues_sort]

/-! ## Transactions -/

namespace Dom

variable {dom : Dom}

theorem children_mapValues : (dom.mapValues f).children = dom.children := by
  funext h
  rw [children, children, mapValues, Option.map_map]
  rfl

theorem mapValues_update (h : Handle) (node : Option Node) :
    (fun k => (Function.update dom.nodes h node k).map (Node.mapValues f)) =
      Function.update (dom.mapValues f).nodes h (node.map (Node.mapValues f)) := by
  funext k
  by_cases hk : k = h
  · subst hk
    simp only [Function.update_self]
  · simp only [Function.update_of_ne hk]
    rfl

theorem mapValues_modifyNode {h : Handle} {g g' : Node → Node}
    (hg : ∀ n, (g n).mapValues f = g' (n.mapValues f)) :
    (dom.modifyNode h g).mapValues f = (dom.mapValues f).modifyNode h g' := by
  have hnode : ((dom.nodes h).map g).map (Node.mapValues f) =
      ((dom.mapValues f).nodes h).map g' := by
    rw [mapValues, Option.map_map, Option.map_map]
    exact congrArg (fun g => Option.map g _) (funext hg)
  rw [modifyNode, modifyNode, mapValues, mapValues_update, hnode]
  rfl

theorem mapValues_modifyKids (h : Handle) (g : List Handle → List Handle) :
    (dom.modifyNode h fun node => { node with kids := g node.kids }).mapValues f =
      (dom.mapValues f).modifyNode h fun node => { node with kids := g node.kids } :=
  mapValues_modifyNode fun _ => rfl

theorem mapValues_takeNode (h : Handle) :
    (dom.takeNode h).mapValues f = (dom.mapValues f).takeNode h := by
  rw [takeNode, takeNode, mapValues, mapValues_update]
  rfl

theorem mapValues_removePending (rounds : Nat) (pending : List Handle) :
    (dom.removePending rounds pending).mapValues f =
      (dom.mapValues f).removePending rounds pending := by
  induction rounds generalizing dom pending with
  | zero => rfl
  | succ rounds ih =>
    rw [removePending, removePending, children_mapValues]
    cases pending.getLast? with
    | none => rfl
    | some current => rw [ih, mapValues_takeNode]

/-- Applying an operation with replaced values to the tree with replaced values. -/
theorem mapValues_applyOp (op : Op) :
    (dom.applyOp op).mapValues f = (dom.mapValues f).applyOp (op.mapValues f) := by
  cases op with
  | ins parent after node =>
    rw [applyOp, mapValues_modifyKids (g := fun kids => insertAfter kids after (dom.highWater + 1))]
    rw [mapValues, mapValues_update]
    rfl
  | rm handle =>
    simp only [applyOp, removeSubtree, Op.mapValues]
    have hparent : (dom.mapValues f).parent handle = dom.parent handle := rfl
    rw [hparent, mapValues_removePending]
    cases dom.parent handle with
    | none => rfl
    | some parent =>
      rw [mapValues_modifyKids (g := fun kids => kids.filter (· ≠ handle))]
      rfl
  | set handle prop value =>
    exact mapValues_modifyNode fun node => node.mapValues_setProp prop value
  | mv handle parent after =>
    have hset : ∀ dom : Dom, (dom.setParent handle (some parent)).mapValues f =
        (dom.mapValues f).setParent handle (some parent) := fun _ => rfl
    have hparent : (dom.mapValues f).parent handle = dom.parent handle := rfl
    simp only [applyOp, moveNode, Op.mapValues]
    rw [hset, mapValues_modifyKids (g := fun kids => insertAfter kids after handle), hparent]
    cases dom.parent handle with
    | none => rfl
    | some old => rw [mapValues_modifyKids (g := fun kids => kids.filter (· ≠ handle))]

theorem mapValues_applyOps (ops : List Op) :
    (dom.applyOps ops).mapValues f = (dom.mapValues f).applyOps (ops.map (Op.mapValues f)) := by
  induction ops generalizing dom with
  | nil => rfl
  | cons op ops ih =>
    rw [applyOps, List.foldl_cons, List.map_cons]
    refine (@ih (dom.applyOp op)).trans ?_
    rw [mapValues_applyOp]
    rfl

theorem validateFrom_mapValues (v : Validation) (i : Nat) (ops : List Op) :
    v.validateFrom i (ops.map (Op.mapValues f)) = v.validateFrom i ops := by
  induction ops generalizing v i with
  | nil => rfl
  | cons op ops ih =>
    have hstep : v.step i (op.mapValues f) = v.step i op := by
      cases op with
      | ins => rfl
      | rm => rfl
      | set => rfl
      | mv => rfl
    rw [List.map_cons, Validation.validateFrom, Validation.validateFrom, hstep]
    simp only [ih]

end Dom

/-! ## Snapshots -/

theorem canonicalize_mapValues (highWater : Nat) (nextSid : Sid) (nodes : Handle → Option Node)
    (parents : Handle → Option Handle) (streams : List (Sid × OpenStream)) :
    (canonicalize highWater nextSid nodes parents streams).mapValues f =
      canonicalize highWater nextSid (fun h => (nodes h).map (Node.mapValues f)) parents streams := by
  simp only [canonicalize, Canonical.mapValues, List.map_filterMap, Option.map_map]
  congr 1
  apply List.filterMap_congr
  intro i _
  cases nodes (i + 1) with
  | none => rfl
  | some node => simp [node.mapValues_sortProps]

theorem materializeAll_mapValues (nodes : Handle → Option Node) (streams : List (Sid × OpenStream))
    (h : Handle) : (materializeAll nodes streams h).map (Node.mapValues f) =
      ((nodes h).map (Node.mapValues f)).map fun n =>
        { n with props := assignAll (KeyedList.mapValues f (textsAt streams h)) n.props } := by
  rw [materializeAll_apply]
  cases nodes h with
  | none => rfl
  | some n => simp [Node.mapValues, mapValues_assignAll]

/-- Trees that agree up to values have canonical snapshots that do. -/
theorem Dom.canonical_mapValues {dom dom' : Dom} (h : dom'.mapValues f = dom.mapValues f) :
    dom'.canonical.mapValues f = dom.canonical.mapValues f := by
  obtain ⟨hnodes, hparents, hhighWater, hstreams, hnextSid⟩ := Dom.mk.inj h
  rw [Dom.canonical, Dom.canonical, canonicalize_mapValues, canonicalize_mapValues, hstreams,
    hparents, hhighWater, hnextSid]
  congr 1
  funext k
  rw [materializeAll_mapValues, materializeAll_mapValues]
  exact congrArg _ (congrFun hnodes k)

end OhMyPi
