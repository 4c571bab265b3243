import Mathlib.Data.List.Forall2
import ProceduralScene.Program.Basic

/-! Rewriting the rules of a program. One rewriting puts a rule in the place of a reference to it,
or the children of a sequence in the place of a sequence in a sequence, at any one place. Any number
of them expand a node into a block of nodes that are run one after the other, where a node that only
goes on with others may be gone. -/
namespace ProceduralScene

namespace Transformation

def withChildren : Transformation → List Transformation → Transformation
  | sequential id _, children => sequential id children
  | parallel id _, children => parallel id children
  | operation id name _, children => operation id name children
  | switch id cases _, children => switch id cases children
  | stochasticSwitch id probabilities _, children => stochasticSwitch id probabilities children
  | unary id operator _, [child] => unary id operator child
  | setVariable id name _, [child] => setVariable id name child
  | binary id operator _ _, [left, right] => binary id operator left right
  | ifElse id _ _ _, [condition, whenTrue, whenFalse] => ifElse id condition whenTrue whenFalse
  | node, _ => node

theorem withChildren_children (node : Transformation) : node.withChildren node.children = node := by
  cases node <;> rfl

theorem astId_withChildren (node : Transformation) (children : List Transformation) :
    (node.withChildren children).astId = node.astId := by
  unfold withChildren
  split <;> rfl

theorem children_withChildren {node : Transformation} {children : List Transformation}
    (same : children.length = node.children.length) :
    (node.withChildren children).children = children := by
  cases node with
  | sequential _ _ | parallel _ _ | operation _ _ _ | switch _ _ _ | stochasticSwitch _ _ _ => rfl
  | unary _ _ _ | setVariable _ _ _ =>
    obtain ⟨child, rfl⟩ := List.length_eq_one_iff.mp same
    rfl
  | binary _ _ _ _ =>
    obtain ⟨left, right, rfl⟩ := List.length_eq_two.mp same
    rfl
  | ifElse _ _ _ _ =>
    obtain ⟨condition, whenTrue, whenFalse, rfl⟩ := List.length_eq_three.mp same
    rfl
  | _ => exact (List.length_eq_zero_iff.mp same).symm

/-- One rewriting, in a program that the references point into. -/
inductive Rewrites (p : Program) : Transformation → Transformation → Prop where
  | inline {id description noun : String} {found : Noun}
    (known : p.noun? description noun = some found) :
    Rewrites p (reference id description noun) found.transformation
  | splice (id inner : String) (before children after : List Transformation) :
    Rewrites p (sequential id (before ++ sequential inner children :: after))
      (sequential id (before ++ (children ++ after)))
  | inside {node child child' : Transformation} {before after : List Transformation}
    (children : node.children = before ++ child :: after) (rewrites : Rewrites p child child') :
    Rewrites p node (node.withChildren (before ++ child' :: after))

inductive Blocks (R : Transformation → List Transformation → Prop) :
    List Transformation → List Transformation → Prop where
  | nil : Blocks R [] []
  | cons {node : Transformation} {block nodes rest : List Transformation} (first : R node block)
    (others : Blocks R nodes rest) : Blocks R (node :: nodes) (block ++ rest)

namespace Blocks

variable {R : Transformation → List Transformation → Prop}
  {nodes others block rest : List Transformation}

theorem single {node : Transformation} (first : R node block) : Blocks R [node] block := by
  have one := Blocks.cons first .nil
  rwa [List.append_nil] at one

theorem append (first : Blocks R nodes block) (second : Blocks R others rest) :
    Blocks R (nodes ++ others) (block ++ rest) := by
  induction first with
  | nil => exact second
  | cons first _ ih =>
    rw [List.append_assoc]
    exact .cons first ih

theorem eq_nil (blocks : Blocks R [] block) : block = [] := by
  cases blocks
  rfl

theorem uncons {node : Transformation} (blocks : Blocks R (node :: nodes) block) :
    ∃ own rest, block = own ++ rest ∧ R node own ∧ Blocks R nodes rest := by
  cases blocks with
  | cons first others => exact ⟨_, _, rfl, first, others⟩

theorem of_each (each : List.Forall₂ (fun node node' => R node [node']) nodes block) :
    Blocks R nodes block := by
  induction each with
  | nil => exact .nil
  | cons first _ ih => exact .cons first ih

end Blocks

inductive Opens (p : Program) : Transformation → List Transformation → Prop where
  | sequential (id : String) (children : List Transformation) :
    Opens p (sequential id children) children
  | reference {id description noun : String} {found : Noun}
    (known : p.noun? description noun = some found) :
    Opens p (reference id description noun) [found.transformation]

/-- A node that is still there, with blocks or single nodes in the place of those below it. -/
inductive Kept (R : Transformation → List Transformation → Prop) :
    Transformation → Transformation → Prop where
  | sequential (id : String) {children block : List Transformation}
    (each : Blocks R children block) : Kept R (.sequential id children) (.sequential id block)
  | inside {node : Transformation} {children : List Transformation}
    (each : List.Forall₂ (fun child child' => R child [child']) node.children children) :
    Kept R node (node.withChildren children)

theorem Kept.astId {R : Transformation → List Transformation → Prop} {node node' : Transformation}
    (kept : Kept R node node') : node'.astId = node.astId := by
  cases kept with
  | sequential id each => rfl
  | inside each => exact astId_withChildren _ _

/-- A node and what any number of rewritings, also in rules that it refers to, can make of it. -/
inductive Expands (p : Program) : Transformation → List Transformation → Prop where
  | opened {node : Transformation} {children block : List Transformation}
    (opens : Opens p node children) (each : Blocks (Expands p) children block) :
    Expands p node block
  | kept {node node' : Transformation} (kept : Kept (Expands p) node node') :
    Expands p node [node']

variable {p : Program}

theorem expands_refl (node : Transformation) : Expands p node [node] := by
  induction node using induction_on_children with
  | step node ih =>
    have kept := Expands.kept (.inside (List.forall₂_same.mpr ih))
    rwa [withChildren_children] at kept

theorem blocks_refl (nodes : List Transformation) : Blocks (Expands p) nodes nodes :=
  .of_each (List.forall₂_same.mpr fun node _ => expands_refl node)

theorem Rewrites.expands {node node' : Transformation} (rewrites : Rewrites p node node') :
    Expands p node [node'] := by
  induction rewrites with
  | inline known => exact .opened (.reference known) (blocks_refl _)
  | splice id inner before children after =>
    have spliced : Expands p (.sequential inner children) children :=
      .opened (.sequential inner children) (blocks_refl children)
    exact .kept <| .sequential id ((blocks_refl before).append (.cons spliced (blocks_refl after)))
  | @inside node child child' before after children _ ih =>
    have same (nodes : List Transformation) :
        List.Forall₂ (fun child child' => Expands p child [child']) nodes nodes :=
      List.forall₂_same.mpr fun node _ => expands_refl node
    refine .kept (.inside ?_)
    rw [children]
    exact List.rel_append (same before) (.cons ih (same after))

end Transformation

theorem lookupKey_of_each {α β : Type} {R : α → β → Prop} {entries : List (String × α)}
    {entries' : List (String × β)}
    (each : List.Forall₂ (fun entry entry' => entry'.1 = entry.1 ∧ R entry.2 entry'.2) entries
      entries') {key : String} {value : α} (found : lookupKey key entries = some value) :
    ∃ value', lookupKey key entries' = some value' ∧ R value value' := by
  induction each with
  | nil => cases found
  | @cons entry entry' rest rest' first _ ih =>
    obtain ⟨other, old⟩ := entry
    obtain ⟨other', new⟩ := entry'
    obtain ⟨same, related⟩ := first
    dsimp only at same
    subst same
    simp only [lookupKey] at found ⊢
    split
    next here =>
      rw [if_pos here] at found
      cases found
      exact ⟨new, rfl, related⟩
    next apart =>
      rw [if_neg apart] at found
      exact ih found

structure Description.Expands (p : Program) (d d' : Description) : Prop where
  initialVariables : d'.initialVariables = d.initialVariables
  root : d'.root = d.root
  nouns : ∀ key noun, d.nouns.get? key = some noun → ∃ noun', d'.nouns.get? key = some noun' ∧
    noun'.astId = noun.astId ∧ noun.transformation.Expands p [noun'.transformation]

def Program.Expands (p p' : Program) : Prop :=
  List.Forall₂ (fun entry entry' => entry'.1 = entry.1 ∧ entry.2.Expands p entry'.2)
    p.entries p'.entries

namespace Program

def withRule (p : Program) (name key : String) (rule : Transformation) : Program :=
  p.mapWithKey fun other d =>
    if other = name then
      { d with nouns := d.nouns.mapWithKey fun noun old =>
        if noun = key then { old with transformation := rule } else old }
    else d

inductive Rewrites (p : Program) : Program → Prop where
  | rule {name key : String} {noun : Noun} {rule : Transformation}
    (known : p.noun? name key = some noun) (rewrites : noun.transformation.Rewrites p rule) :
    Rewrites p (p.withRule name key rule)

theorem Expands.noun? {p p' : Program} (expands : p.Expands p') {description key : String}
    {noun : Noun} (known : p.noun? description key = some noun) :
    ∃ noun', p'.noun? description key = some noun' ∧
      noun.transformation.Expands p [noun'.transformation] := by
  obtain ⟨d, described, named⟩ := Option.bind_eq_some_iff.mp known
  obtain ⟨d', described', expanded⟩ := lookupKey_of_each expands described
  obtain ⟨noun', named', _, transformed⟩ := expanded.nouns key noun named
  exact ⟨noun', Option.bind_eq_some_iff.mpr ⟨d', described', named'⟩, transformed⟩

theorem Rewrites.expands {p p' : Program} (rewrites : p.Rewrites p') : p.Expands p' := by
  obtain @⟨name, key, noun, rule, known, rewrites⟩ := rewrites
  refine List.forall₂_map_right_iff.mpr (List.forall₂_same.mpr fun entry member => ⟨rfl, ?_⟩)
  obtain ⟨other, d⟩ := entry
  dsimp only
  split
  next here =>
    subst here
    refine ⟨rfl, rfl, fun noun' old named => ?_⟩
    rw [Keyed.get?_mapWithKey, named]
    refine ⟨_, rfl, ?_⟩
    split
    next replaced =>
      subst replaced
      have same : p.noun? other noun' = some old :=
        Option.bind_eq_some_iff.mpr ⟨d, Keyed.get?_of_mem member, named⟩
      cases same.symm.trans known
      exact ⟨rfl, rewrites.expands⟩
    · exact ⟨rfl, Transformation.expands_refl _⟩
  · exact ⟨rfl, rfl, fun noun' old named => ⟨old, named, rfl, Transformation.expands_refl _⟩⟩

end Program
end ProceduralScene
