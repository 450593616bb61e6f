import Tidal.Proofs.RegularProofs
import Tidal.Proofs.LawProofs
import Tidal.Proofs.SqueezeProofs
import Tidal.Proofs.PureValueProofs
import Tidal.Proofs.ZoomProofs
import Tidal.Proofs.TimeCatProofs
import Tidal.Proofs.SewProofs
import Tidal.Proofs.StripeProofs
import Tidal.Proofs.FeetProofs
import Tidal.Proofs.PolyrhythmProofs
import Tidal.Proofs.StreamProofs
import Tidal.Proofs.ClockProofs
import Tidal.Proofs.BusProofs
import Tidal.Proofs.ResolveProofs
import Tidal.Proofs.TransitionProofs
import Tidal.Proofs.StepwiseProofs
import Tidal.Proofs.SamplingProofs
import Tidal.Proofs.ReverseProofs
import Tidal.Proofs.CyclesProofs
import Tidal.Proofs.TakeDropProofs
import Tidal.Proofs.DivisionProofs
import Tidal.Proofs.BjorklundProofs
import Tidal.Proofs.SlicingProofs
import Tidal.Proofs.WithinProofs
import Tidal.Proofs.ChunkProofs
import Tidal.Proofs.MonoProofs
import Tidal.Proofs.ArpeggiateProofs
import Tidal.Proofs.StepJoinProofs
import Tidal.Proofs.RotProofs
import Tidal.Proofs.ChewProofs
import Tidal.Proofs.ChordsProofs
import Tidal.Proofs.WashProofs
import Tidal.Proofs.DefragProofs
import Tidal.Proofs.EuclidProofs
import Tidal.Proofs.DistribProofs
import Tidal.Proofs.ShuffleProofs
import Tidal.Proofs.ControlProofs
import Tidal.Proofs.ScalesProofs
import Tidal.Proofs.PathProofs
import Tidal.Proofs.CollectProofs
import Tidal.Proofs.ValueClassesProofs
import Tidal.Proofs.ParamsProofs
import Tidal.Proofs.MarkovProofs
import Tidal.Proofs.CheckedTimeProofs
import Tidal.Proofs.WeightsProofs
import Tidal.Proofs.ShowProofs
import Tidal.Proofs.TactusProofs
import Tidal.Proofs.IntersectionProofs
import Tidal.Proofs.RandArcsProofs
import Tidal.Lib.Concurrent
import Tidal.Lib.LockOrder
import Tidal.Lib.Serial
import Tidal.Lib.Views
import Tidal.Meaning
import Tidal.Proofs.DegradeProofs
import Tidal.Proofs.MixerProofs
import Tidal.Proofs.PacingProofs
import Tidal.Proofs.PerformanceProofs
import Tidal.Proofs.SessionProofs
import Tidal.Proofs.StackedProofs
import Tidal.Proofs.ThreadsProofs
