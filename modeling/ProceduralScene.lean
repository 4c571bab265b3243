import ProceduralScene.Counting
import ProceduralScene.Main
import ProceduralScene.Proofs.Draw.Mixing
import ProceduralScene.Proofs.Evaluation.Nesting
import ProceduralScene.Proofs.Interpreter.Antichain
import ProceduralScene.Proofs.Interpreter.Observation
import ProceduralScene.Proofs.Interpreter.Renewal
import ProceduralScene.Proofs.Payload.Search
import ProceduralScene.Proofs.Scene.Agents
import ProceduralScene.Proofs.Scene.Ancestry
import ProceduralScene.Proofs.Scene.Dodging
import ProceduralScene.Proofs.Scene.Following
import ProceduralScene.Proofs.Scene.Inlining
import ProceduralScene.Proofs.Scene.ReadOnly
import ProceduralScene.Proofs.Scene.Sampling
import ProceduralScene.Proofs.Scene.Seeding
import ProceduralScene.Proofs.Scene.Synchrony
import ProceduralScene.Proofs.Scene.Waiting
import ProceduralScene.Proofs.Scene.WellFormed
import ProceduralScene.Proofs.Session.Delivery
import ProceduralScene.Proofs.Session.Message
