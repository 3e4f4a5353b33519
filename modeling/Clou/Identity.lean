import Clou.Graph

/-! The identities of the nodes of an unrolled graph: they tell nodes apart, and they tell which
nodes are in the same iterations of the loops around them. -/

namespace Clou.Unrolled

open Cfg Labelled

section

variable {calls loops : List Config} {σ τ : Config} {f : FuncRef}

theorem FuncPath.unique {path : List FuncID} (left : FuncPath calls σ path)
    (right : FuncPath calls τ path) : σ = τ := by
  cases left with
  | root =>
    generalize empty : [] = path at right
    cases right with
    | root => rfl
    | call _ _ => simp at empty
  | @call fr σ path k _ found =>
    generalize same : path ++ [k] = path' at right
    cases right with
    | root => simp at same
    | call _ found' =>
      rcases List.append_inj' same rfl with ⟨-, last⟩
      cases last
      exact Option.some.inj (found.symm.trans found')

variable {p : List Nat} {ids : List LoopID}

theorem Levels.length (levels : Levels loops σ f p ids) : ids.length = p.length := by
  induction levels with
  | own => rfl
  | inside _ _ ih => simp [ih]

theorem Levels.unique {q : List Nat} (left : Levels loops σ f p ids)
    (right : Levels loops σ f q ids) : p = q := by
  cases left with
  | own => exact (List.length_eq_zero_iff.mp right.length.symm).symm
  | @inside p ids header i k _ found =>
    generalize same : ids ++ [k] = ids' at right
    cases right with
    | own => simp at same
    | inside _ found' =>
      rcases List.append_inj' same rfl with ⟨-, last⟩
      cases last
      have here := Option.some.inj (found.symm.trans found')
      simp only [List.cons.injEq, Frame.mk.injEq] at here
      exact here.1.2.2.2

/-- The outer levels of a place have the front of its numbers. -/
theorem Levels.front {ids₀ : List LoopID} (levels : Levels loops σ f p ids) (front : ids₀ <+: ids) :
    ∃ p₀, p₀ <+: p ∧ Levels loops σ f p₀ ids₀ := by
  induction levels with
  | own =>
    rw [List.prefix_nil.mp front]
    exact ⟨[], List.prefix_rfl, .own⟩
  | inside levels found ih =>
    rcases List.prefix_concat_iff.mp front with rfl | shorter
    · exact ⟨_, List.prefix_rfl, .inside levels found⟩
    · rcases ih shorter with ⟨p₀, before, levels₀⟩
      exact ⟨p₀, before.trans (List.prefix_append _ _), levels₀⟩

theorem Levels.front_of_front {q : List Nat} {ids' : List LoopID} (left : Levels loops σ f p ids)
    (right : Levels loops σ f q ids') (front : ids <+: ids') : p <+: q := by
  rcases right.front front with ⟨p₀, before, levels₀⟩
  rw [left.unique levels₀]
  exact before

theorem LoopPath.length {path path' : List LoopID} (left : LoopPath loops σ path)
    (right : LoopPath loops σ path') : path.length = path'.length := by
  induction left generalizing path' with
  | root =>
    cases right
    rfl
  | frame _ levels ih =>
    cases right with
    | frame outer levels' => simp [ih outer, levels.length, levels'.length]

end

section

variable {calls loops : List Config} {x y : Label} {node node' : Node}

variable {id : ID}

theorem Depicts.inst_of_id (depicts : Depicts calls loops x node) (named : node.id = some id) :
    ∃ fr σ, x = .inst (fr :: σ) ∧ node.v = .inst fr.inst ∧ Names calls loops σ fr.func fr.iters id := by
  cases depicts with
  | entry => cases named
  | exit => cases named
  | inst names =>
    cases named
    exact ⟨_, _, rfl, rfl, names⟩

theorem Names.loop_split {σ : Config} {f g : FuncRef} {p q : List Nat} {id' : ID}
    (left : Names calls loops σ f p id) (right : Names calls loops σ g q id') :
    ∃ outer outer' own own', id.loop = outer ++ own ∧ id'.loop = outer' ++ own' ∧
      outer.length = outer'.length ∧ Levels loops σ f p own ∧ Levels loops σ g q own' := by
  rcases left.loop with ⟨outer, own, split, path, levels⟩
  rcases right.loop with ⟨outer', own', split', path', levels'⟩
  exact ⟨outer, outer', own, own', split, split', path.length path', levels, levels'⟩

/-- The instruction and the identity of a node determine its label. -/
theorem Depicts.unique (left : Depicts calls loops x node) (right : Depicts calls loops y node')
    (named : node.id = some id) (named' : node'.id = some id) (inst : node.v = node'.v) :
    x = y := by
  rcases left.inst_of_id named with ⟨fr, σ, rfl, here, names⟩
  rcases right.inst_of_id named' with ⟨fr', τ, rfl, there, names'⟩
  obtain rfl := names.func.unique names'.func
  have same : fr.inst = fr'.inst := by
    rw [here, there] at inst
    exact Variant.inst.inj inst
  rcases fr with ⟨f, B, i, iters⟩
  rcases fr' with ⟨f', B', i', iters'⟩
  simp only [Frame.inst, InstRef.mk.injEq] at same
  rcases same with ⟨rfl, rfl, rfl⟩
  rcases names.loop_split names' with ⟨outer, outer', own, own', split, split', length, levels, levels'⟩
  rcases List.append_inj (split.symm.trans split') length with ⟨-, rfl⟩
  obtain rfl : iters = iters' := levels.unique levels'
  rfl

end

/-- No two nodes of an unrolled graph have the same instruction and the same identity. -/
theorem identity_unique {P : Program} {F : FuncRef} (okay : P.Ok)
    (defined : (P.M.func F).isDeclaration = false) {order : HashOrder} {cfg : Cfg}
    (constructed : constructCfg order P F = some cfg) {a b : NodeRef} {node node' : Node}
    (left : cfg.nodes[a]? = some node) (right : cfg.nodes[b]? = some node') {I : InstRef}
    (inst : node.v = .inst I) (inst' : node'.v = .inst I) (same : node.id = node'.id) : a = b := by
  rcases (constructCfg_yields okay defined order).result constructed with
    ⟨labels, calls, loops, unrolls, depicted⟩
  rcases lookup_related depicted.flip left with ⟨x, here, depicts⟩
  rcases lookup_related depicted.flip right with ⟨y, there, depicts'⟩
  have named : ∃ id, node.id = some id := by
    cases depicts with
    | entry => cases inst
    | exit => cases inst
    | inst _ => exact ⟨_, rfl⟩
  rcases named with ⟨id, named⟩
  have equal : x = y :=
    depicts.unique depicts' named (same.symm.trans named) (inst.trans inst'.symm)
  exact number_unique unrolls.denotes.nodup here (equal ▸ there)

theorem callInLoop_identities : ∃ cfg, constructCfg .listed callInLoop 0 = some cfg ∧
    (∃ node, cfg.nodes[2]? = some node ∧ node.v = .inst ⟨1, 0, 0⟩) ∧
    ∀ (a b : NodeRef) (node node' : Node) (I : InstRef), cfg.nodes[a]? = some node →
      cfg.nodes[b]? = some node' → node.v = .inst I → node'.v = .inst I → node.id = node'.id → a = b := by
  rcases callInLoop_constructed with ⟨cfg, constructed⟩
  have third : (constructCfg .listed callInLoop 0).bind (fun cfg => cfg.variant 2) =
      some (.inst ⟨1, 0, 0⟩) := by decide +kernel
  rw [constructed, Option.bind_some, Cfg.variant, Option.map_eq_some_iff] at third
  refine ⟨cfg, constructed, third, ?_⟩
  intro a b node node' I left right inst inst' same
  exact identity_unique callInLoop_ok rfl constructed left right inst inst' same

/-! The iterations that two nodes share -/

/-- A block in some iterations is in a loop, in the iteration `path` of it: the last number is
the iteration, those before tell the entry into the loop. -/
inductive Around (B : Nat) (L : Loop) : List Loop → List Nat → List Nat → Prop
  | here {loops i iters} : L ∈ loops → B ∈ L.blocks → Around B L loops (i :: iters) [i]
  | deeper {loops T i iters path} : T ∈ loops → B ∈ T.blocks → Around B L T.subloops iters path →
      Around B L loops (i :: iters) (i :: path)

section

variable {P : Program} {F : Function} {LI : LoopInfo} {loops : List Loop}

theorem Fits.of_mem {T : Loop} {B : Nat} {iters : List Nat} (fits : Fits P loops B iters)
    (side : SideBySide F LI loops) (member : T ∈ loops) (inside : B ∈ T.blocks) :
    ∃ i inner, iters = i :: inner ∧ Fits P T.subloops B inner := by
  cases fits with
  | own outside => exact absurd inside (outside T member)
  | inside member' inside' _ inner =>
    obtain rfl := side.disjoint _ member' _ member _ inside' inside
    exact ⟨_, _, rfl, inner⟩

/-- In iterations of which one begins with the other, two blocks are in the same iteration of
every loop around both. -/
theorem around_common {L T : Loop} (side : SideBySide F LI loops) (member : T ∈ loops)
    (within : L.Within T) {B C : Nat} {iters iters' : List Nat} (inside : B ∈ L.blocks)
    (inside' : C ∈ L.blocks) (fits : Fits P loops B iters) (fits' : Fits P loops C iters')
    (front : iters <+: iters' ∨ iters' <+: iters) :
    ∃ path, Around B L loops iters path ∧ Around C L loops iters' path := by
  induction within generalizing loops iters iters' with
  | self =>
    rcases fits.of_mem side member inside with ⟨i, inner, rfl, -⟩
    rcases fits'.of_mem side member inside' with ⟨j, inner', rfl, -⟩
    have equal : i = j := by
      rcases front with front | front
      · exact (List.cons_prefix_cons.mp front).1
      · exact (List.cons_prefix_cons.mp front).1.symm
    subst equal
    exact ⟨[i], .here member inside, .here member inside'⟩
  | @sub T S sub within ih =>
    have whole := side.natural.inside (.sub sub within) (side.mem T member)
    rcases fits.of_mem side member (whole B inside) with ⟨i, inner, rfl, below⟩
    rcases fits'.of_mem side member (whole C inside') with ⟨j, inner', rfl, below'⟩
    have split : i = j ∧ (inner <+: inner' ∨ inner' <+: inner) := by
      rcases front with front | front
      · exact (List.cons_prefix_cons.mp front).imp_right .inl
      · exact ⟨(List.cons_prefix_cons.mp front).1.symm, .inr (List.cons_prefix_cons.mp front).2⟩
    rcases split with ⟨rfl, front'⟩
    rcases ih (side.sub member) sub below below' front' with ⟨path, around, around'⟩
    exact ⟨i :: path, .deeper member (whole B inside) around, .deeper member (whole C inside') around'⟩

end

/-- Two instances are in the same iteration, of the same entry into it, of every loop around
both. The loops are those of all functions on the stack, outermost first. -/
def SameIterations (P : Program) (c d : Config) : Prop :=
  ∀ (k : Nat) (fr fr' : Frame), c.reverse[k]? = some fr → d.reverse[k]? = some fr' →
    ∀ L, (P.loopInfo fr.func).Mem L → fr.block ∈ L.blocks → fr'.block ∈ L.blocks →
    ∃ path, Around fr.block L (P.loopInfo fr.func).top fr.iters path ∧
      Around fr'.block L (P.loopInfo fr.func).top fr'.iters path

theorem prefix_of_take {a b : List Nat} (shorter : a.length ≤ b.length)
    (valid : prefixeqBi a b = true) : a <+: b := by
  simp only [prefixeqBi, decide_eq_true_eq, Nat.min_eq_left shorter, List.take_length] at valid
  rw [valid]
  exact List.take_prefix _ _

theorem prefixeqBi_comm (a b : List Nat) : prefixeqBi a b = prefixeqBi b a := by
  simp only [prefixeqBi, Nat.min_comm, eq_comm]

variable {outer outer' own own' : List Nat}

theorem prefix_of_append (length : outer.length = outer'.length)
    (front : outer ++ own <+: outer' ++ own') : own <+: own' := by
  rcases front with ⟨rest, same⟩
  rw [List.append_assoc] at same
  exact ⟨rest, (List.append_inj same length).2⟩

theorem prefixeqBi_append (length : outer.length = outer'.length)
    (valid : prefixeqBi (outer ++ own) (outer' ++ own') = true) : own <+: own' ∨ own' <+: own := by
  rcases Nat.le_total (outer ++ own).length (outer' ++ own').length with shorter | shorter
  · exact .inl (prefix_of_append length (prefix_of_take shorter valid))
  · rw [prefixeqBi_comm] at valid
    exact .inr (prefix_of_append length.symm (prefix_of_take shorter valid))

theorem sameIterations_of_front {P : Program} (okay : P.Ok) {fr fr' : Frame} {σ : Config}
    (frames : ∀ x ∈ fr :: σ, (P.M.func x.func).isDeclaration = false ∧ FrameIn P x.func x)
    (inside' : FrameIn P fr.func fr') (front : fr.iters <+: fr'.iters ∨ fr'.iters <+: fr.iters) :
    SameIterations P (fr :: σ) (fr' :: σ) := by
  intro k x y left right L member inside here
  have known : x ∈ fr :: σ := List.mem_reverse.mp (List.mem_of_getElem? left)
  rcases frames x known with ⟨defined, frameIn⟩
  have side := SideBySide.top (okay x.func defined).natural
  rcases member with ⟨T, top, within⟩
  have both : FrameIn P x.func y ∧ (x.iters <+: y.iters ∨ y.iters <+: x.iters) := by
    rw [List.reverse_cons, List.getElem?_append] at left right
    split at left
    · rename_i outer
      rw [if_pos outer, left] at right
      cases right
      exact ⟨frameIn, .inl List.prefix_rfl⟩
    · rename_i own
      rw [if_neg own] at right
      obtain rfl := List.mem_singleton.mp (List.mem_of_getElem? left)
      obtain rfl := List.mem_singleton.mp (List.mem_of_getElem? right)
      exact ⟨inside', front⟩
  exact around_common side top within inside here frameIn.fits both.1.fits both.2

/-- Where the alias results of the compiler are reused, they apply: the nodes are in the same
function instance and in the same iterations. -/
theorem llvmAliasValid_sound {P : Program} {F : FuncRef} (okay : P.Ok)
    (defined : (P.M.func F).isDeclaration = false) {order : HashOrder} {cfg : Cfg}
    (constructed : constructCfg order P F = some cfg) :
    ∃ labels, Unrolls P F cfg labels ∧ ∀ {a b : NodeRef} {node node' : Node},
      cfg.nodes[a]? = some node → cfg.nodes[b]? = some node' → node.llvmAliasValid node' = true →
      ∃ fr fr' σ, labels[a]? = some (.inst (fr :: σ)) ∧ labels[b]? = some (.inst (fr' :: σ)) ∧
        fr.func = fr'.func ∧ SameIterations P (fr :: σ) (fr' :: σ) := by
  rcases (constructCfg_yields okay defined order).result constructed with
    ⟨labels, calls, loops, unrolls, depicted⟩
  refine ⟨labels, unrolls, ?_⟩
  intro a b node node' left right valid
  rcases lookup_related depicted.flip left with ⟨x, here, depicts⟩
  rcases lookup_related depicted.flip right with ⟨y, there, depicts'⟩
  have ids : ∃ id id', node.id = some id ∧ node'.id = some id' ∧ id.func = id'.func ∧
      prefixeqBi id.loop id'.loop = true := by
    unfold Node.llvmAliasValid at valid
    split at valid
    · rename_i id id' named named'
      unfold ID.llvmAliasValid at valid
      split at valid
      · cases valid
      · split at valid
        · cases valid
        · exact ⟨id, id', named, named', by simp_all, by simp_all⟩
    · cases valid
  rcases ids with ⟨id, id', named, named', func, loop⟩
  rcases depicts.inst_of_id named with ⟨fr, σ, rfl, -, names⟩
  rcases depicts'.inst_of_id named' with ⟨fr', τ, rfl, -, names'⟩
  obtain rfl := names.func.unique (func ▸ names'.func)
  have placed := ((unrolls.mem_labels _).mp (List.mem_of_getElem? here)).1
  have placed' := ((unrolls.mem_labels _).mp (List.mem_of_getElem? there)).1
  have same := placed.func_eq placed'
  refine ⟨fr, fr', σ, here, there, same, ?_⟩
  rcases names.loop_split names' with ⟨outer, outer', own, own', split, split', length, levels, levels'⟩
  rw [split, split'] at loop
  rw [← same] at levels'
  apply sameIterations_of_front okay (placed.frames defined)
  · rw [same]
    exact (placed'.frames defined fr' List.mem_cons_self).2
  · rcases prefixeqBi_append length loop with front | front
    · exact .inl (levels.front_of_front levels' front)
    · exact .inr (levels'.front_of_front levels front)

theorem callInLoop_aliasValid : ∃ cfg, constructCfg .listed callInLoop 0 = some cfg ∧
    ∃ labels, Unrolls callInLoop 0 cfg labels ∧ ∀ {a b : NodeRef} {node node' : Node},
      cfg.nodes[a]? = some node → cfg.nodes[b]? = some node' → node.llvmAliasValid node' = true →
      ∃ fr fr' σ, labels[a]? = some (.inst (fr :: σ)) ∧ labels[b]? = some (.inst (fr' :: σ)) ∧
        fr.func = fr'.func ∧ SameIterations callInLoop (fr :: σ) (fr' :: σ) := by
  rcases callInLoop_constructed with ⟨cfg, constructed⟩
  exact ⟨cfg, constructed, llvmAliasValid_sound callInLoop_ok rfl constructed⟩

end Clou.Unrolled
