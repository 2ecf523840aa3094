import CoinSpend.Circuit
import CoinSpend.SystemCache
import CoinSpend.Proofs.GridPositions
import CoinSpend.Proofs.ResidueClasses
import CoinSpend.Proofs.WireClasses
import CoinSpend.Proofs.ConstraintRows
import CoinSpend.Proofs.Residuals
import CoinSpend.Proofs.SpendRelations
import CoinSpend.Proofs.HonestWires
import CoinSpend.Proofs.ChallengePowers
import CoinSpend.Proofs.AggregatedWeights
import CoinSpend.Proofs.AggregatedResidual
import CoinSpend.Proofs.LinearRelations
import CoinSpend.Proofs.Extraction
import CoinSpend.Proofs.SpendCircuits
import CoinSpend.Proofs.SpendVerdicts
import CoinSpend.Proofs.AggregationSoundness
import CoinSpend.Proofs.PassingWires
import CoinSpend.Proofs.Tampering
import CoinSpend.Proofs.ChallengeIndependence
import CoinSpend.Proofs.SerialBinding
import CoinSpend.Proofs.OpeningSeparation
import CoinSpend.Proofs.StrongProbablePrimes
import CoinSpend.Proofs.ByteNumbers
import CoinSpend.Proofs.ByteForms
import CoinSpend.Proofs.MintedCoins
import CoinSpend.Proofs.CacheHistories
import CoinSpend.Proofs.Projections
import CoinSpend.Proofs.ShapeSafety
import CoinSpend.Proofs.PrescribedResiduals
import CoinSpend.Proofs.FoldedEquivalence
import CoinSpend.Proofs.FieldExpressions
import CoinSpend.Proofs.WeightedResiduals
import CoinSpend.Proofs.FlippedBits
import CoinSpend.Proofs.SharedSystems
import CoinSpend.Proofs.AssignedGates
import CoinSpend.Proofs.StoredTerms
import CoinSpend.Proofs.ProjectedWeights
import CoinSpend.Proofs.ProjectedTerms
import CoinSpend.Proofs.JointPowers
import CoinSpend.Proofs.Inverses
import CoinSpend.Proofs.PowerTables
import CoinSpend.Proofs.EvenSampling
import CoinSpend.Proofs.ReportedViolations
import CoinSpend.Proofs.AcceptedShapes
import CoinSpend.Proofs.SeparatePowers
import CoinSpend.Proofs.GridHistories
